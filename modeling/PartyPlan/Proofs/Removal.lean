import PartyPlan.Proofs.Mirror
import PartyPlan.Proofs.Refusal

/-! Taking a node out of a valid plan. Its child is handed over to its parent, which takes every place
of the node. A child that keeps its inputs in an order and names the parent there already would name it
twice; this is all that can make the plan invalid. -/
namespace PartyPlan

namespace Plan

variable {g h k : Plan} {id parent c i : NodeId} {child : Option NodeId} {n m : Node} {f : Node → Node}

/-- The child names both the node and the node's parent in one order. -/
def NamesBoth (g : Plan) (parent : NodeId) (child : Option NodeId) (id : NodeId) : Prop :=
  parent ≠ id ∧ ∃ c n ordered, child = some c ∧ g.get? c = some n ∧ n.inputs = .nary ordered ∧
    parent ∈ ordered ∧ id ∈ ordered

def HandsOver (g : Plan) (parent : NodeId) (child : Option NodeId) (id : NodeId) (k : Plan) : Prop :=
  match child with
  | none => k = g
  | some c => ∃ m, (g.moveEdge c id parent).get? c = some m ∧ k = (g.moveEdge c id parent).lookedUp c m

structure Removed (g : Plan) (parent : NodeId) (child : Option NodeId) (id : NodeId) (h : Plan) :
    Prop where
  admits : g.Admits (.remove parent child id)
  bare : ∃ n, h.get? id = some n ∧ n.Bare
  leaves : g.Mutual → ∃ k, g.HandsOver parent child id k ∧ h = k.orphaned id

namespace Numbered

theorem update (h : g.Numbered) (hf : ∀ n, (f n).id = n.id) : (g.update i f).Numbered :=
  forall_update h fun n hn => (hf n).trans (h i n hn)

theorem moveEdge {old new : NodeId} (h : g.Numbered) : (g.moveEdge c old new).Numbered := by
  have h₁ : (g.update old (.withoutChild c)).Numbered := h.update fun _ => rfl
  have h₂ : ((g.update old (.withoutChild c)).update new (.withChild c)).Numbered :=
    h₁.update fun _ => rfl
  exact h₂.update fun _ => rfl

theorem orphaned (h : g.Numbered) : (g.orphaned id).Numbered := by
  intro i n hn
  rw [get?_orphaned] at hn
  obtain ⟨m, hm, rfl⟩ := Option.map_eq_some_iff.mp hn
  split
  · exact h i m hm
  · exact h i m hm

end Numbered

/-- Inputs without repetition name nothing twice after a replacement, unless both names stand in an
order. -/
theorem distinct_replace_iff (ht : n.Tied) (hn : g.get? c = some n) :
    (n.inputs.replace id parent).Distinct ↔ ¬ g.NamesBoth parent (some c) id := by
  have hd := ht.distinct
  have hboth : g.NamesBoth parent (some c) id ↔
      parent ≠ id ∧ ∃ ordered, n.inputs = .nary ordered ∧ parent ∈ ordered ∧ id ∈ ordered := by
    refine and_congr_right fun _ => ⟨?_, ?_⟩
    · rintro ⟨b, m, ordered, hb, hm, rest⟩
      cases hb
      cases hm.symm.trans hn
      exact ⟨ordered, rest⟩
    · rintro ⟨ordered, rest⟩
      exact ⟨c, n, ordered, rfl, hn, rest⟩
  rw [hboth]
  cases hi : n.inputs with
  | unary input => simp [Inputs.replace, Inputs.Distinct]
  | binary left right => simp [Inputs.replace, Inputs.Distinct]
  | nary ordered =>
    rw [hi] at hd
    have hmap : (ordered.map (Operator.swap id parent)).Nodup ↔ _ := Node.Tied.nodup_map_swap_iff hd
    simp only [Inputs.replace, Inputs.Distinct, hmap, Inputs.nary.injEq, exists_eq_left']
    tauto

/-- A node that stands between itself and itself has no other parent. -/
theorem Admits.child_ne (ha : g.Admits (.remove parent (some c) id)) (hg : g.Mutual)
    (hne : parent ≠ id) : c ≠ id := by
  rintro rfl
  obtain ⟨⟨n, hn, _, hsize, _⟩, hp, hc⟩ := ha
  have hparent : parent ∈ n.parents := by
    rw [← parentsOf_eq hn, hg]
    exact hp
  have hself : c ∈ n.parents := by
    rw [← parentsOf_eq hn, hg]
    exact hc
  rw [IdSet.mem_def] at hparent hself
  rw [IdSet.size] at hsize
  obtain ⟨a, ha⟩ := List.length_eq_one_iff.mp
    (Nat.le_antisymm hsize (List.length_pos_of_mem hself))
  rw [ha, List.mem_singleton] at hparent hself
  exact hne (hparent.trans hself.symm)

section HandsOver

variable (ha : g.Admits (.remove parent child id)) (hk : g.HandsOver parent child id k)
include ha hk

theorem HandsOver.mutual (hg : g.Mutual) : k.Mutual := by
  cases child with
  | none => exact hk ▸ hg
  | some c =>
    obtain ⟨m, _, rfl⟩ := hk
    intro p q
    rw [parentsOf_lookedUp, childrenOf_lookedUp]
    exact hg.moveEdge (hg.child_lt ha.2.2) ha.2.1.lt_size p q

theorem HandsOver.numbered (hg : g.Numbered) : k.Numbered := by
  cases child with
  | none => exact hk ▸ hg
  | some c =>
    obtain ⟨m, _, rfl⟩ := hk
    exact hg.moveEdge.update fun _ => rfl

/-- A child that names no input twice keeps the plan valid. -/
theorem HandsOver.valid (hg : g.Valid) (hboth : ¬ g.NamesBoth parent child id) : k.Valid := by
  cases child with
  | none => exact hk ▸ hg
  | some c =>
    obtain ⟨m, hm, rfl⟩ := hk
    have hmoved : (g.moveEdge c id parent).Valid :=
      hg.moveEdge_of_distinct ha.2.2 ha.2.1.lt_size fun n hn =>
        (distinct_replace_iff (hg.nodes c n hn) hn).mpr hboth
    refine hmoved.update (fun _ => rfl) (fun _ => rfl) (fun _ => rfl) fun n hn => ?_
    cases hn.symm.trans hm
    exact Operator.helpers_refresh ..

/-- A child that would name an input twice does so after the node is gone. -/
theorem HandsOver.not_valid (hg : g.Valid) (hboth : g.NamesBoth parent child id) :
    ¬ (k.orphaned id).Valid := by
  intro hvalid
  obtain ⟨hne, c, n, ordered, rfl, hn, hi, hp, hid⟩ := hboth
  obtain ⟨m, hm, rfl⟩ := hk
  have hcid := Admits.child_ne ha hg.edges hne
  have hread : (g.moveEdge c id parent).reading c = _ := reading_moveEdge
  rw [reading_eq hm, reading_eq hn, Option.map_some, Option.some.injEq, Prod.mk.injEq] at hread
  have hget : (((g.moveEdge c id parent).lookedUp c m).orphaned id).get? c =
      some ({ m with op := (m.op.refresh (m.inputs.read
        (g.moveEdge c id parent).output?)).value }.withoutChild id) := by
    rw [get?_orphaned, lookedUp, get?_update, if_pos rfl, hm, Option.map_some, Option.map_some,
      if_neg hcid]
  have htied := (hvalid.nodes c _ hget).distinct
  have hreplaced : (n.inputs.replace id parent).Distinct := hread.2 ▸ htied
  exact (distinct_replace_iff (hg.nodes c n hn) hn).mp hreplaced
    ⟨hne, c, n, ordered, rfl, hn, hi, hp, hid⟩

end HandsOver

end Plan

theorem Edit.Checks.meets {x : Edit Unit} {C : Plan → Prop} (hx : Checks x C) (g : Plan) :
    Meets (· = g) x (fun _ h => h = g ∧ C g) fun _ _ => True := by
  rintro d rfl
  rcases hx d with ⟨hc, hok⟩ | ⟨_, e, he⟩
  · rw [hok]
    exact ⟨rfl, hc⟩
  · rw [he]
    trivial

namespace Splice
open Edit Plan

variable {g : Plan} {parent id : NodeId} {child : Option NodeId}

/-- Once the child is handed over, the node is detached and has no edges any more. -/
theorem isolate_removes {k : Plan} (hk : Detachable id k) (ha : g.Admits (.remove parent child id))
    (hover : g.HandsOver parent child id k) (pre post : String) (details : List (String × String)) :
    Meets (· = k) (do isolate id; reportOn id pre post details)
      (fun _ h => g.Removed parent child id h) fun _ _ => True := by
  refine Meets.bind ((isolate_clears hk _).mono (fun _ hh => hh) (fun _ h hh => ?_) fun _ _ hh => hh)
    fun _ => reportOn_keeps (fun _ _ => trivial) _ _ _ _
  exact ⟨ha, hh.1, fun hg => ⟨k, hover, hh.2 (hover.mutual ha hg)⟩⟩

theorem removeBetween_removes (hin : g.InRange) (parent : NodeId) (child : Option NodeId)
    (id : NodeId) : Meets (· = g) (removeBetween parent child id)
      (fun _ h => g.Removed parent child id h) fun _ _ => True := by
  refine Meets.bind ((checks_requireUnaryShape id).meets g) fun _ => Meets.of_fact fun hshape => ?_
  refine Meets.bind ((checks_requireLink parent id).meets g) fun _ => Meets.of_fact fun hp => ?_
  cases child with
  | none =>
    refine Meets.bind (M := fun n h => h = g ∧ g.get? id = some n)
      (Meets.fetch (fun h n hh hn => ⟨hh, hh ▸ hn⟩) fun _ _ _ => trivial) fun n =>
        Meets.of_fact fun hn => ?_
    split
    · exact Meets.bind (M := fun _ _ => True) (Meets.plan fun _ _ => trivial) fun _ =>
        Meets.throw fun _ _ => trivial
    · next hsome =>
      have hnone : ∀ c, ¬ g.Edge id c := by
        simp only [Bool.not_eq_true, Bool.not_eq_false', IdSet.isEmpty_iff, IdSet.eq_empty_iff] at hsome
        rwa [← childrenOf_eq hn] at hsome
      obtain ⟨m, hm, hunary, hrest⟩ := hshape
      have hdetach : Detachable id g :=
        ⟨hin.parents id, fun c hc => absurd hc (hnone c), m, hm, hunary⟩
      have hover : g.HandsOver parent none id g := rfl
      exact isolate_removes hdetach ⟨⟨m, hm, hunary, hrest⟩, hp, hnone⟩ hover _ _ _
  | some c =>
    refine Meets.bind ((checks_requireLink id c).meets g) fun _ => Meets.of_fact fun hc => ?_
    refine Meets.bind ((adopt_moves (hin.children id c hc) hp.lt_size hc).mono (fun _ hh => hh)
      (fun _ _ hh => hh) fun _ _ _ => trivial) fun _ => Meets.of_each fun k hk => ?_
    obtain ⟨m, hm, _, hk⟩ := hk
    have hover : g.HandsOver parent (some c) id k := ⟨m, hm, hk⟩
    exact isolate_removes (hk ▸ detachable_moved hin hshape hp hc hm) ⟨hshape, hp, hc⟩ hover _ _ _

end Splice

namespace Plan.Removed

variable {g h : Plan} {parent id : NodeId} {child : Option NodeId}

/-- No other node lists a node that was taken out. -/
theorem unlisted (hr : g.Removed parent child id h) (hg : g.Mutual) (i : NodeId) :
    ¬ id ∈ h.childrenOf i ∧ ¬ id ∈ h.parentsOf i := by
  obtain ⟨k, hover, rfl⟩ := hr.leaves hg
  obtain ⟨n, hn, hbare⟩ := hr.bare
  refine ⟨fun hc => (mem_childrenOf_orphaned.mp hc).2 rfl, fun hp => ?_⟩
  have hedge : i ∈ (k.orphaned id).childrenOf id := ((hover.mutual hr.admits hg).orphaned id i).mp hp
  rw [childrenOf_eq hn, hbare.2] at hedge
  exact IdSet.not_mem_empty i hedge

theorem valid_iff (hr : g.Removed parent child id h) (hg : g.Valid) :
    h.Valid ↔ ¬ g.NamesBoth parent child id := by
  obtain ⟨k, hover, rfl⟩ := hr.leaves hg.edges
  constructor
  · intro hvalid hboth
    exact hover.not_valid hr.admits hg hboth hvalid
  · intro hboth
    exact (hover.valid hr.admits hg hboth).orphaned

theorem numbered (hr : g.Removed parent child id h) (hg : g.Numbered) (hm : g.Mutual) :
    h.Numbered := by
  obtain ⟨k, hover, rfl⟩ := hr.leaves hm
  exact (hover.numbered hr.admits hg).orphaned

end Plan.Removed

/-- A node that is taken out of a validated plan is left without edges. Where nodes know their numbers,
no other node lists it either, and the plan still passes validation just when the child does not name
both the node and its parent in one order. -/
theorem removeBetween_validates_iff (d d' : Draft) (parent : NodeId) (child : Option NodeId)
    (id : NodeId) (hv : d.plan.validate = .ok ())
    (hr : (Splice.removeBetween parent child id).apply d = (.ok (), d')) :
    (∃ n, d'.plan.get? id = some n ∧ n.Bare) ∧
    (d.plan.Numbered →
      (∀ i, ¬ id ∈ d'.plan.childrenOf i ∧ ¬ id ∈ d'.plan.parentsOf i) ∧
      (d'.plan.validate = .ok () ↔ ¬ d.plan.NamesBoth parent child id)) := by
  have hremoved : d.plan.Removed parent child id d'.plan := by
    have := Splice.removeBetween_removes (Plan.inRange_of_validate hv) parent child id d rfl
    rwa [hr] at this
  refine ⟨hremoved.bare, fun hnum => ?_⟩
  have hvalid : d.plan.Valid := (Plan.validate_eq_ok_iff hnum).mp hv
  refine ⟨hremoved.unlisted hvalid.edges, ?_⟩
  rw [Plan.validate_eq_ok_iff (hremoved.numbered hnum hvalid.edges)]
  exact hremoved.valid_iff hvalid

def doubled : Draft :=
  Call.afterAll [.build (.create "in" [⟨"a", .integer, ∅⟩] (.singleton 1)),
    .build (.shuffle 0 "mixed"), .build (.concat [0, 1] "both" none)] ⟨∅, []⟩

theorem doubled_removed_invalid : doubled.plan.validate = .ok () ∧
    ((Splice.removeBetween 0 (some 2) 1).apply doubled).1 = .ok () ∧
    ((Splice.removeBetween 0 (some 2) 1).apply doubled).2.plan.validate ≠ .ok () := by
  decide +kernel

theorem doubled_names_both : doubled.plan.validate = .ok () ∧
    ((Splice.removeBetween 0 (some 2) 1).apply doubled).1 = .ok () ∧ doubled.plan.Numbered ∧
    doubled.plan.NamesBoth 0 (some 2) 1 := by
  have hv : doubled.plan.validate = .ok () := by decide +kernel
  have hok : ((Splice.removeBetween 0 (some 2) 1).apply doubled).1 = .ok () := by decide +kernel
  have hinvalid : ((Splice.removeBetween 0 (some 2) 1).apply doubled).2.plan.validate ≠ .ok () := by
    decide +kernel
  have hreached : Reached (fun _ _ => True) doubled :=
    Reached.start.afterAll (by simp [Call.AllAllowed])
  have hnum : doubled.plan.Numbered := fun i n hn => (hreached.linked.nodes i n hn).id
  have hiff := ((removeBetween_validates_iff doubled _ 0 (some 2) 1 hv (Prod.ext hok rfl)).2 hnum).2
  exact ⟨hv, hok, hnum, not_not.mp (mt hiff.mpr hinvalid)⟩

end PartyPlan
