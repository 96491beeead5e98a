import Mathlib.Order.WellFoundedSet
import PartyPlan.Proofs.Sortable

/-! Secure regions have a start and an end. Whether a node is where a region starts or ends is asked of
the node and its neighbours only. Where no node lies on a cycle, going from neighbour to neighbour has to
stop, and the node it stops at is what was asked for. -/
open Relation (ReflTransGen TransGen)

namespace PartyPlan

section Walks

variable {r : NodeId → NodeId → Prop}

/-- Among finitely many nodes, steps that never lead back cannot go on forever. -/
theorem wellFounded_of_no_cycle {k : Nat} (hlt : ∀ a b, r a b → a < k ∧ b < k)
    (hcycle : ∀ a, ¬ TransGen r a a) : WellFounded r := by
  have horder : IsStrictOrder NodeId (TransGen r) :=
    { irrefl := hcycle, trans := fun _ _ _ => TransGen.trans }
  have hfinite : (Set.Iio k).WellFoundedOn (TransGen r) := (Set.finite_Iio k).wellFoundedOn
  refine Subrelation.wf ?_ (Set.wellFoundedOn_iff.mp hfinite)
  intro a b hab
  exact ⟨.single hab, hlt a b hab⟩

theorem exists_last (hr : WellFounded (Function.swap r)) (a : NodeId) :
    ∃ b, ReflTransGen r a b ∧ ∀ c, ¬ r b c := by
  induction a using hr.induction with
  | h a ih =>
    by_cases hstep : ∃ b, r a b
    · obtain ⟨b, hab⟩ := hstep
      obtain ⟨c, hbc, hlast⟩ := ih b hab
      exact ⟨c, .head hab hbc, hlast⟩
    · exact ⟨a, .refl, not_exists.mp hstep⟩

end Walks

namespace Plan

variable {g : Plan} {x p c id : NodeId} {n : Node} {kind : Kind}

def SecureBut (g : Plan) (kind : Kind) (x : NodeId) : Prop :=
  ∃ n, g.get? x = some n ∧ n.isMpc = true ∧ n.kind ≠ kind

/-- A step up inside a secure region, to a secure parent that does not close. -/
def StepUp (g : Plan) (c p : NodeId) : Prop := p ∈ g.parentsOf c ∧ g.SecureBut .closing p

/-- A step down inside a secure region, to a secure child that does not open. -/
def StepDown (g : Plan) (p c : NodeId) : Prop := c ∈ g.childrenOf p ∧ g.SecureBut .opening c

theorem secureBut_iff (hn : g.get? x = some n) :
    g.SecureBut kind x ↔ n.isMpc = true ∧ n.kind ≠ kind := by
  simp [SecureBut, hn]

theorem anySecure_eq_false {ids : List NodeId} (hids : ∀ x ∈ ids, x < g.size)
    (hnone : ∀ x ∈ ids, ¬ g.SecureBut kind x) : g.anySecure kind ids = .ok false := by
  induction ids with
  | nil => rfl
  | cons a ids ih =>
    obtain ⟨n, hn⟩ := exists_fetch (hids a (by simp))
    have ha : ¬ (n.isMpc = true ∧ n.kind ≠ kind) := by
      rw [← secureBut_iff (fetch_eq_ok.mp hn)]
      exact hnone a (by simp)
    rw [anySecure, hn]
    show (if n.isMpc = true ∧ n.kind ≠ kind then pure true else g.anySecure kind ids) = _
    rw [if_neg ha]
    exact ih (fun x hx => hids x (by simp [hx])) fun x hx => hnone x (by simp [hx])

/-- A secure node from which no step leads up is where a region starts. -/
theorem Mutual.isUpperBoundary (hg : g.Mutual) (hn : g.get? id = some n) (hs : n.isMpc = true)
    (hlast : ∀ p, ¬ g.StepUp id p) : g.isUpperBoundary id = .ok true := by
  have hmem : ∀ p, p ∈ n.parents.toList ↔ p ∈ g.parentsOf id := by
    intro p
    rw [parentsOf_eq hn, IdSet.mem_def]
  have hnone : g.anySecure .closing n.parents.toList = .ok false := by
    apply anySecure_eq_false
    · intro p hp
      exact hg.parent_lt ((hmem p).mp hp)
    · intro p hp hsecure
      exact hlast p ⟨(hmem p).mp hp, hsecure⟩
  rw [Plan.isUpperBoundary, fetch_eq_ok.mpr hn]
  simp [bind, Except.bind, hs, hnone, pure, Except.pure]

/-- A secure node from which no step leads down is where a region ends. -/
theorem Mutual.isLowerBoundary (hg : g.Mutual) (hn : g.get? id = some n) (hs : n.isMpc = true)
    (hlast : ∀ c, ¬ g.StepDown id c) : g.isLowerBoundary id = .ok true := by
  have hmem : ∀ c, c ∈ n.children.toList ↔ c ∈ g.childrenOf id := by
    intro c
    rw [childrenOf_eq hn, IdSet.mem_def]
  have hnone : g.anySecure .opening n.children.toList = .ok false := by
    apply anySecure_eq_false
    · intro c hc
      exact hg.child_lt ((hmem c).mp hc)
    · intro c hc hsecure
      exact hlast c ⟨(hmem c).mp hc, hsecure⟩
  rw [Plan.isLowerBoundary, fetch_eq_ok.mpr hn]
  simp [bind, Except.bind, hs, hnone, pure, Except.pure]

/-- Steps that only lead to secure nodes keep to secure nodes. -/
theorem secure_of_steps {r : NodeId → NodeId → Prop} (hr : ∀ a b, r a b → g.SecureBut kind b)
    (hn : g.get? id = some n) (hs : n.isMpc = true) (hsteps : ReflTransGen r id x) :
    ∃ m, g.get? x = some m ∧ m.isMpc = true := by
  induction hsteps with
  | refl => exact ⟨n, hn, hs⟩
  | tail _ hstep _ =>
    obtain ⟨m, hm, hsecure, _⟩ := hr _ _ hstep
    exact ⟨m, hm, hsecure⟩

variable (hg : g.Mutual) (hcycle : g.CycleFree)
include hg hcycle

theorem CycleFree.stepUp_wellFounded : WellFounded (Function.swap g.StepUp) := by
  have hedge : WellFounded g.Edge :=
    wellFounded_of_no_cycle (fun p c he => ⟨he.lt_size, hg.child_lt he⟩) hcycle
  refine Subrelation.wf ?_ hedge
  intro p c hstep
  exact (hg p c).mp hstep.1

theorem CycleFree.stepDown_wellFounded : WellFounded (Function.swap g.StepDown) := by
  have hedge : WellFounded (Function.swap g.Edge) := by
    apply wellFounded_of_no_cycle
    · intro c p he
      exact ⟨hg.child_lt he, Edge.lt_size he⟩
    · intro x hx
      exact hcycle x (Relation.transGen_swap.mp hx)
  refine Subrelation.wf ?_ hedge
  intro c p hstep
  exact hstep.1

end Plan

/-- In a plan whose edges are known at both ends, and hence lead to nodes that are there, and in which no
node lies on a cycle, every secure node lies in a region with a start and an end. Steps to secure parents
that do not close lead from it to a node that is said to start a region and has no such parent, and steps to
secure children that do not open lead to one that is said to end a region and has no such child. -/
theorem secure_region_bounded (g : Plan) (hedges : g.Mutual) (hcycle : g.CycleFree) (id : NodeId)
    (n : Node) (hn : g.get? id = some n) (hsecure : n.isMpc = true) :
    (∃ first, ReflTransGen g.StepUp id first ∧ g.isUpperBoundary first = .ok true ∧
      ∀ p, ¬ g.StepUp first p) ∧
    ∃ last, ReflTransGen g.StepDown id last ∧ g.isLowerBoundary last = .ok true ∧
      ∀ c, ¬ g.StepDown last c := by
  constructor
  · obtain ⟨first, hsteps, hlast⟩ := exists_last (hcycle.stepUp_wellFounded hedges) id
    obtain ⟨m, hm, hs⟩ := Plan.secure_of_steps (fun _ _ h => h.2) hn hsecure hsteps
    exact ⟨first, hsteps, hedges.isUpperBoundary hm hs hlast, hlast⟩
  · obtain ⟨last, hsteps, hlast⟩ := exists_last (hcycle.stepDown_wellFounded hedges) id
    obtain ⟨m, hm, hs⟩ := Plan.secure_of_steps (fun _ _ h => h.2) hn hsecure hsteps
    exact ⟨last, hsteps, hedges.isLowerBoundary hm hs hlast, hlast⟩

/-- Two sources that are shared and joined by way of an index, the result joined with itself in the same
way, and the last output revealed. The general joins stay behind as nodes 4 and 6. -/
def nestedJoins : List Call :=
  [.build (.create "l" [⟨"k", .integer, ∅⟩] (.singleton 1)),
    .build (.create "r" [⟨"k", .integer, ∅⟩] (.singleton 2)),
    .build (.closing 0 "sharedL" (.ofList [1, 2])), .build (.closing 1 "sharedR" (.ofList [1, 2])),
    .build (.indexJoin 2 3 "inner" ["k"] ["k"] 0), .build (.indexJoin 5 5 "outer" ["k"] ["k"] 2),
    .build (.opening 7 "shown" 1)]

/-- The outer join does not start the region it lies in, nor does the inner one end it. -/
theorem nestedJoins_region_bounded :
    let g := (Call.afterAll nestedJoins ⟨∅, []⟩).plan
    (g.size = 9 ∧ g.isUpperBoundary 7 = .ok false ∧ g.isLowerBoundary 5 = .ok false) ∧
    (∃ first, ReflTransGen g.StepUp 7 first ∧ g.isUpperBoundary first = .ok true ∧
      ∀ p, ¬ g.StepUp first p) ∧
    ∃ last, ReflTransGen g.StepDown 5 last ∧ g.isLowerBoundary last = .ok true ∧
      ∀ c, ¬ g.StepDown last c := by
  intro g
  have hreached : Reached (fun _ => Call.Composes) (Call.afterAll nestedJoins ⟨∅, []⟩) :=
    Reached.start.afterAll (by simp [nestedJoins, Call.AllAllowed, Call.Composes])
  have hcycle : g.CycleFree := Plan.cycleFree_of_lt hreached.laid.forward
  have hsecure : ∀ id ∈ [5, 7], ∃ n, g.get? id = some n ∧ n.isMpc = true := by
    intro id hid
    have hmark : ∀ id ∈ [5, 7], (g.get? id).map (·.isMpc) = some true := by decide +kernel
    exact Option.map_eq_some_iff.mp (hmark id hid)
  obtain ⟨inner, hinner, hs⟩ := hsecure 5 (by decide)
  obtain ⟨outer, houter, hs'⟩ := hsecure 7 (by decide)
  exact ⟨by decide +kernel,
    (secure_region_bounded g hreached.linked.edges hcycle 7 outer houter hs').1,
    (secure_region_bounded g hreached.linked.edges hcycle 5 inner hinner hs).2⟩

end PartyPlan
