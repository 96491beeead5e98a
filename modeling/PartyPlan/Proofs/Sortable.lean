import PartyPlan.Proofs.Extension

/-! A plan that is put together from requests for operators can be sorted. Inputs are there before what
reads them, so every edge leads to a later node; sources are the only nodes without inputs, so the roots
lead to whatever is not left behind by a special form. -/
namespace PartyPlan

/-- The calls that put a plan together: requests for operators, and deliveries of outputs. -/
def Call.Composes : Call → Prop
  | .build _ | .collect .. => True
  | _ => False

def Call.ComposesPlainly : Call → Prop
  | .build (.indexJoin ..) | .build (.indexAggregate ..) => False
  | .build _ | .collect .. => True
  | _ => False

theorem Call.ComposesPlainly.composes {c : Call} (hc : c.ComposesPlainly) : c.Composes := by
  cases c with
  | build b => trivial
  | collect id party => trivial
  | _ => exact hc.elim

theorem Builder.added_pos (b : Builder) : 0 < b.added := by
  cases b <;> exact Nat.succ_pos _

theorem Builder.added_eq_one {b : Builder} (hb : (Call.build b).ComposesPlainly) : b.added = 1 := by
  cases b with
  | indexJoin => exact hb.elim
  | indexAggregate => exact hb.elim
  | _ => rfl

namespace Plan

variable {g h : Plan} {inputs : List NodeId} {added : Nat} {id p c i : NodeId} {s : PartySet}

structure Laid (g : Plan) : Prop where
  forward : ∀ p c, g.Edge p c → p < c
  sources : ∀ i, i ∈ g.roots ↔ ∃ n, g.get? i = some n ∧ n.kind = .create

def Covered (g : Plan) : Prop := ∀ i < g.size, g.Reaches i

theorem Laid.empty : (∅ : Plan).Laid where
  forward := by
    intro p c he
    obtain ⟨n, hn, _⟩ := mem_childrenOf.mp he
    simp at hn
  sources := by
    intro i
    simp only [get?_empty]
    exact iff_of_false (IdSet.not_mem_empty i) (by simp)

theorem Covered.empty : (∅ : Plan).Covered := fun i hi => absurd hi (Nat.not_lt_zero i)

namespace Grown

/-- The new node stands after the old ones. -/
theorem le (hg : g.Grown inputs added id h) (ha : 0 < added) : g.size ≤ id := by
  have hsize : id + 1 = g.size + added := hg.last.trans hg.size
  exact Nat.le_of_succ_le_succ ((Nat.add_le_add_left ha g.size).trans_eq hsize.symm)

/-- A node that was not there before is left behind without edges, or is the new one. -/
theorem new_cases (hg : g.Grown inputs added id h) (hi : ¬ i < g.size) {n : Node}
    (hn : h.get? i = some n) : n.children = ∅ ∧ (n.kind = .create ↔ inputs = [] ∧ i = id) := by
  rcases Nat.lt_trichotomy i id with hlt | rfl | hgt
  · obtain ⟨m, hm, hbare, hk⟩ := hg.spare i (Nat.not_lt.mp hi) hlt
    cases hm.symm.trans hn
    exact ⟨hbare.2, iff_of_false hk fun hc => Nat.ne_of_lt hlt hc.2⟩
  · obtain ⟨m, hm, hkids, _, hk⟩ := hg.placed
    cases hm.symm.trans hn
    exact ⟨hkids, by simpa using hk⟩
  · have hlt := lt_size hn
    rw [← hg.last] at hlt
    exact absurd hlt (Nat.not_lt.mpr hgt)

/-- The only new edges lead from the inputs to the new node. -/
theorem edge_iff (hg : g.Grown inputs added id h) : h.Edge p c ↔ g.Edge p c ∨ p ∈ inputs ∧ c = id := by
  unfold Edge
  by_cases hp : p < g.size
  · rw [mem_childrenOf, mem_childrenOf, hg.kept p hp]
    obtain ⟨m, hm⟩ := lt_size_iff.mp hp
    by_cases hin : p ∈ inputs
    · simp [hm, hin, Node.withChild, or_comm]
    · simp [hm, hin]
  · refine iff_of_false (fun he => ?_) ?_
    · obtain ⟨n, hn, hc⟩ := mem_childrenOf.mp he
      have hnone := (hg.new_cases hp hn).1
      exact IdSet.not_mem_empty c (hnone ▸ hc)
    · rintro (he | ⟨hin, _⟩)
      · exact hp (Edge.lt_size he)
      · exact hp (hg.known p hin)

/-- The new node is a source just when it has no inputs; the others are sources as before. -/
theorem source_iff (hg : g.Grown inputs added id h) (ha : 0 < added) :
    (∃ n, h.get? i = some n ∧ n.kind = .create) ↔
      (∃ n, g.get? i = some n ∧ n.kind = .create) ∨ inputs = [] ∧ i = id := by
  by_cases hi : i < g.size
  · have hne : i ≠ id := Nat.ne_of_lt (Nat.lt_of_lt_of_le hi (hg.le ha))
    obtain ⟨m, hm⟩ := lt_size_iff.mp hi
    rw [hg.kept i hi, hm]
    by_cases hin : i ∈ inputs <;> simp [hin, hne, Node.kind, Node.withChild]
  · have hold : ¬ ∃ n, g.get? i = some n ∧ n.kind = .create := by
      rintro ⟨n, hn, _⟩
      exact hi (lt_size hn)
    rw [or_iff_right hold]
    constructor
    · rintro ⟨n, hn, hk⟩
      exact (hg.new_cases hi hn).2.mp hk
    · rintro ⟨hin, rfl⟩
      obtain ⟨m, hm, _, _, hk⟩ := hg.placed
      exact ⟨m, hm, hk.mpr hin⟩

theorem laid (hg : g.Grown inputs added id h) (ha : 0 < added) (hlaid : g.Laid) : h.Laid where
  forward := by
    intro p c he
    rcases hg.edge_iff.mp he with he | ⟨hin, rfl⟩
    · exact hlaid.forward p c he
    · exact Nat.lt_of_lt_of_le (hg.known p hin) (hg.le ha)
  sources := by
    intro i
    rw [hg.source_iff ha, ← hlaid.sources i, hg.roots]
    by_cases hin : inputs = []
    · simp [hin, or_comm]
    · simp [hin]

theorem reaches (hg : g.Grown inputs added id h) (hr : g.Reaches i) : h.Reaches i := by
  induction hr with
  | root hr =>
    refine .root ?_
    rw [hg.roots]
    split
    · exact IdSet.mem_insert.mpr (.inr hr)
    · exact hr
  | child _ he ih => exact ih.child (hg.edge_iff.mpr (.inl he))

/-- With no node left behind the roots lead to the new node too, itself a root or below its inputs. -/
theorem covered (hg : g.Grown inputs 1 id h) (hcov : g.Covered) : h.Covered := by
  have hid : id = g.size := Nat.succ.inj (hg.last.trans hg.size)
  intro i hi
  rw [hg.size] at hi
  rcases Nat.lt_succ_iff_lt_or_eq.mp hi with hlt | hlast
  · exact hg.reaches (hcov i hlt)
  · rw [hlast, ← hid]
    cases hin : inputs with
    | nil =>
      refine .root ?_
      rw [hg.roots, if_pos hin]
      exact IdSet.mem_insert.mpr (.inl rfl)
    | cons p ps =>
      have hp : p ∈ inputs := by simp [hin]
      exact (hg.reaches (hcov p (hg.known p hp))).child (hg.edge_iff.mpr (.inr ⟨hp, rfl⟩))

end Grown

/-! Delivering an output moves no edge and makes no source. -/

theorem edge_heldBy : (g.update id (.heldBy s)).Edge p c ↔ g.Edge p c := by
  rw [Edge, childrenOf_heldBy, Edge]

theorem Laid.heldBy (hlaid : g.Laid) : (g.update id (.heldBy s)).Laid where
  forward := fun p c he => hlaid.forward p c (edge_heldBy.mp he)
  sources := by
    intro i
    rw [roots_update, hlaid.sources i, get?_update]
    by_cases hi : id = i
    · simp [hi, Node.kind, Node.heldBy]
    · simp [hi]

theorem Reaches.heldBy (hr : g.Reaches i) : (g.update id (.heldBy s)).Reaches i := by
  induction hr with
  | root hr => exact .root hr
  | child _ he ih => exact ih.child (edge_heldBy.mpr he)

theorem Covered.heldBy (hcov : g.Covered) : (g.update id (.heldBy s)).Covered := by
  intro i hi
  rw [size_update] at hi
  exact (hcov i hi).heldBy

/-- What is said of a node and of the relations it reads, and does not ask who holds them, goes on to hold
when an output is delivered. -/
theorem forall_nodes_heldBy {β : Type} {view : Relation → β}
    {J : (NodeId → Option Relation) → NodeId → Node → Prop} (hview : ∀ r s, view (r.heldBy s) = view r)
    (hread : ∀ f f' i n, (∀ p ∈ n.inputs.ids, (f' p).map view = (f p).map view) → J f i n → J f' i n)
    (hheld : ∀ f i n s, J f i n → J f i (n.heldBy s))
    (hold : ∀ i n, g.get? i = some n → J g.output? i n) (id : NodeId) (s : PartySet) (i : NodeId)
    (n : Node) (hn : (g.update id (.heldBy s)).get? i = some n) :
    J (g.update id (.heldBy s)).output? i n := by
  have hsame : ∀ p, ((g.update id (.heldBy s)).output? p).map view = (g.output? p).map view := by
    intro p
    rw [output?, output?, get?_update]
    split
    · cases g.get? p <;> simp [Node.heldBy, hview]
    · rfl
  rw [get?_update] at hn
  split at hn
  · obtain ⟨m, hm, rfl⟩ := Option.map_eq_some_iff.mp hn
    exact hread _ _ i _ (fun p _ => hsame p) (hheld _ i m s (hold i m hm))
  · exact hread _ _ i n (fun p _ => hsame p) (hold i n hn)

/-- Sorting comes to an end and leaves out only what no root leads to. -/
theorem Laid.topSort_eq_ok (hlaid : g.Laid) (hg : g.Linked) (byName : Bool) :
    ∃ order, g.topSort byName = .ok order ∧ order.Nodup ∧ ∀ i, i ∈ order ↔ g.Reaches i := by
  obtain ⟨order, hsort, _⟩ := (acyclic_of_lt hlaid.forward).topSort_eq_ok hg.inRange byName
  exact ⟨order, hsort, topSort_places hsort⟩

end Plan

open Plan

variable {d : Draft} {I : Plan → Prop}

/-- What is kept when a plan receives what a request adds, and when an output is delivered, is kept by
each call that puts a plan together. -/
theorem Call.composed_after {c : Call} (hc : c.Composes) (hl : d.plan.Linked) (hd : I d.plan)
    (hreceived : ∀ b v id h, c = .build b → b.derive d.plan.relationOf = .ok v →
      d.plan.Receives b v id h → I h)
    (hheld : ∀ id s, I (d.plan.update id (.heldBy s))) : I (c.after d).plan := by
  cases c with
  | build b => exact Call.received_after hl hd fun v id h hv hr => hreceived b v id h rfl hv hr
  | collect id party =>
    refine Edit.Meets.after_any (P := (· = d.plan)) ?_ rfl
    exact (Build.collect_meets id party).mono (fun _ hh => hh)
      (fun _ h hh => hh.2 ▸ hheld id (.singleton party)) fun _ h hh => hh.1 ▸ hd
  | _ => exact hc.elim

theorem Reached.laid (h : Reached (fun _ => Call.Composes) d) : d.plan.Laid := by
  refine (h.always (I := fun g => g.Linked ∧ g.Laid) ⟨.empty, .empty⟩ fun d c hc hd => ?_).2
  refine ⟨(Call.linked c).after hd.1, Call.composed_after hc hd.1 hd.2 ?_ fun id s => hd.2.heldBy⟩
  exact fun b _ id h _ _ hr => hr.toGrown.laid b.added_pos hd.2

theorem Reached.covered (h : Reached (fun _ => Call.ComposesPlainly) d) : d.plan.Covered := by
  refine (h.always (I := fun g => g.Linked ∧ g.Covered) ⟨.empty, .empty⟩ fun d c hc hd => ?_).2
  refine ⟨(Call.linked c).after hd.1, Call.composed_after hc.composes hd.1 hd.2 ?_ fun id s => hd.2.heldBy⟩
  rintro b _ id h rfl _ hr
  have hgrown := hr.toGrown
  rw [b.added_eq_one hc] at hgrown
  exact hgrown.covered hd.2

/-- In a plan that requests for operators and deliveries put together, granted or refused, every edge
leads to a later node, the roots are the sources, and sorting succeeds in both ways. If there was no
request for a special form, the order has every node once. -/
theorem composed_sortable (d : Draft) (h : Reached (fun _ => Call.Composes) d) :
    (∀ p c, d.plan.Edge p c → p < c) ∧
    (∀ i, i ∈ d.plan.roots ↔ ∃ n, d.plan.get? i = some n ∧ n.kind = .create) ∧
    ∀ byName, ∃ order, d.plan.topSort byName = .ok order ∧
      (Reached (fun _ => Call.ComposesPlainly) d →
        order.Nodup ∧ ∀ i, i ∈ order ↔ i < d.plan.size) := by
  have hlaid := h.laid
  refine ⟨hlaid.forward, hlaid.sources, fun byName => ?_⟩
  obtain ⟨order, hsort, hnodup, hmem⟩ := hlaid.topSort_eq_ok h.linked byName
  refine ⟨order, hsort, fun hplain => ⟨hnodup, fun i => (hmem i).trans ?_⟩⟩
  exact ⟨h.linked.inRange.reaches_lt, hplain.covered i⟩

/-- A run with a request that is refused, a delivery, and last a special form. -/
def layered : List Call :=
  [.build (.create "l" [⟨"k", .integer, ∅⟩] (.singleton 1)),
    .build (.create "r" [⟨"k", .integer, ∅⟩] (.singleton 2)), .build (.join 0 1 "j" ["k"] ["k"]),
    .build (.concat [0, 2] "c" none), .build (.concat [1, 1] "d" none), .collect 3 1,
    .build (.indexJoin 1 0 "i" ["k"] ["k"] 3)]

theorem layered_sortable :
    let d := Call.afterAll (layered.take 6) ⟨∅, []⟩
    let d' := Call.afterAll layered ⟨∅, []⟩
    (d.plan.size = 4 ∧ d'.plan.size = 6) ∧
      (∃ order, d.plan.topSort true = .ok order ∧ order.Nodup ∧ ∀ i, i ∈ order ↔ i < d.plan.size) ∧
      (∀ p c, d'.plan.Edge p c → p < c) ∧
      (∀ i, i ∈ d'.plan.roots ↔ ∃ n, d'.plan.get? i = some n ∧ n.kind = .create) ∧
      ∃ order, d'.plan.topSort false = .ok order := by
  intro d d'
  have hplain : Reached (fun _ => Call.ComposesPlainly) d :=
    Reached.start.afterAll (by simp [layered, Call.AllAllowed, Call.ComposesPlainly])
  have hd : Reached (fun _ => Call.Composes) d :=
    Reached.start.afterAll (by simp [layered, Call.AllAllowed, Call.Composes])
  have hd' : Reached (fun _ => Call.Composes) d' :=
    Reached.start.afterAll (by simp [layered, Call.AllAllowed, Call.Composes])
  obtain ⟨_, _, hsort⟩ := composed_sortable d hd
  obtain ⟨order, horder, hfull⟩ := hsort true
  obtain ⟨hforward, hsources, hsort'⟩ := composed_sortable d' hd'
  obtain ⟨order', horder', _⟩ := hsort' false
  exact ⟨by decide +kernel, ⟨order, horder, hfull hplain⟩, hforward, hsources, order', horder'⟩

end PartyPlan
