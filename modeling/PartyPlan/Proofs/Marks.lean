import PartyPlan.Proofs.Idempotence
import PartyPlan.Proofs.Ordering

/-! Marking a whole plan. The marks a plan lacks are decided by the plan as it was, so that marking it sets
just these, counts each of them once, and finds none left when it is done. -/
open Relation (TransGen)

namespace PartyPlan

/-- Every node some root leads to has got a mark if it needs a secure protocol; other marks are as they
were, and nothing but marks has changed. -/
structure Plan.MarksNeeded (g g' : Plan) : Prop where
  roots : g'.roots = g.roots
  size : g'.size = g.size
  nodes : ∀ i n, g.get? i = some n → ∃ b, g'.get? i = some { n with isMpc := b } ∧
    (b = true ↔ n.isMpc = true ∨ (g.Reaches i ∧ g.requiresMpc i = .ok true))

def Plan.remarked (g g' : Plan) : Set NodeId :=
  {i | (g'.get? i).map Node.isMpc ≠ (g.get? i).map Node.isMpc}

namespace Plan

variable {g g' : Plan} {i : NodeId} {order : List NodeId}

theorem marksNeeded_marking (h : g.topSort true = .ok order) : g.MarksNeeded (g.marking order) where
  roots := rfl
  size := (marked_marking g order).size
  nodes i n hn := by
    have hmem : i ∈ order ↔ g.Reaches i := (topSort_places h).2 i
    rw [get?_marking, hn, Option.map_some, ← hmem]
    split
    · next hneeds => exact ⟨true, rfl, by simp [hneeds]⟩
    · next hneeds => exact ⟨n.isMpc, rfl, by simp [hneeds]⟩

theorem mem_remarked_marking : i ∈ g.remarked (g.marking order) ↔ i ∈ order ∧ g.unmarked i = true := by
  rw [remarked, Set.mem_ofPred_eq, get?_marking, unmarked]
  cases hn : g.get? i with
  | none => simp
  | some n =>
    by_cases hneeds : i ∈ order ∧ g.requiresMpc i = .ok true
    · cases hm : n.isMpc <;> simp [hneeds, hm]
    · simp only [Option.map_some, if_neg hneeds, ne_eq, not_true, false_iff, Bool.and_eq_true,
        decide_eq_true_eq]
      exact fun h => hneeds ⟨h.1, h.2.1⟩

/-- As many marks change as were missing. -/
theorem countP_unmarked_eq (hnodup : order.Nodup) :
    order.countP g.unmarked = (g.remarked (g.marking order)).ncard := by
  rw [List.countP_eq_length_filter]
  refine (ncard_eq_length (hnodup.filter _) fun i => ?_).symm
  rw [mem_remarked_marking, List.mem_filter]

theorem Marked.inRange (hm : g.Marked g') (hg : g.InRange) : g'.InRange where
  parents := by
    rw [hm.parentsOf, hm.size]
    exact hg.parents
  children := by
    rw [hm.childrenOf, hm.size]
    exact hg.children
  roots := by
    rw [hm.roots, hm.size]
    exact hg.roots

end Plan

namespace Optimize
open Edit Plan

variable {g : Plan} {d : Draft} {e : Error}

/-- Marking a plan that cannot be sorted does nothing. -/
theorem markMpc_refused (h : d.plan.topSort true = .error e) : markMpc.apply d = (.error e, d) := by
  rw [markMpc, apply_bind, apply_ask, h]

/-- Where no mark is missing, marking changes nothing. -/
theorem markMpc_idle (hg : g.InRange) (ha : g.Acyclic) (hmarked : ∀ j, g.Reaches j → g.unmarked j = false) :
    Meets (· = g) markMpc (fun c h => h = g ∧ c = 0) fun _ _ => False := by
  obtain ⟨order, horder, hreach⟩ := ha.topSort_eq_ok hg true
  have hnone : ∀ i ∈ order, g.unmarked i = false := fun i hi => hmarked i (hreach i hi)
  refine (markMpc_exact hg horder).mono (fun _ hh => hh) ?_ fun _ _ hh => hh
  rintro c h ⟨rfl, rfl⟩
  refine ⟨marking_eq_self hnone, List.countP_eq_zero.mpr fun i hi => ?_⟩
  simp [hnone i hi]

end Optimize

open Plan in
/-- Marking a plan without cycles below its roots sets the marks that are needed and answers how many marks
it has changed; a second time it answers that there are none, and changes nothing. A plan with such a
cycle is left alone. -/
theorem markMpc_marks_needed (d : Draft) (hg : d.plan.InRange) :
    (d.plan.Acyclic → ∃ k d' d'', Optimize.markMpc.apply d = (.ok k, d') ∧
      d.plan.MarksNeeded d'.plan ∧ k = (d.plan.remarked d'.plan).ncard ∧
      Optimize.markMpc.apply d' = (.ok 0, d'') ∧ d''.plan = d'.plan) ∧
    (¬ d.plan.Acyclic → ∃ x, d.plan.Reaches x ∧ TransGen d.plan.Edge x x ∧
      Optimize.markMpc.apply d = (.error (.cycle (d.plan.describe x)), d)) := by
  constructor
  · intro ha
    obtain ⟨order, horder, _⟩ := ha.topSort_eq_ok hg true
    obtain ⟨k, d', hrun, hplan, hk⟩ := (Optimize.markMpc_exact hg horder).succeeds rfl
    have hm : d.plan.Marked d'.plan := hplan ▸ marked_marking d.plan order
    have hdone : ∀ j, d'.plan.Reaches j → d'.plan.unmarked j = false := by
      rw [hplan]
      exact fun j hj => Optimize.unmarked_sorted hg horder hj
    obtain ⟨k', d'', hagain, hsame, rfl⟩ :=
      (Optimize.markMpc_idle (hm.inRange hg) (hm.mirrors.acyclic hg ha) hdone).succeeds rfl
    rw [countP_unmarked_eq (topSort_places horder).1, ← hplan] at hk
    exact ⟨k, d', d'', hrun, hplan ▸ marksNeeded_marking horder, hk, hagain, hsame⟩
  · intro hcyclic
    rcases topSort_spec hg.grounded true with ⟨order, horder, _⟩ | ⟨x, hx, hreach, hpath⟩
    · exact absurd (acyclic_of_topSort horder) hcyclic
    · exact ⟨x, hreach, hpath, Optimize.markMpc_refused hx⟩

/-- Of two joins of shared data one has its mark already; a loop that stood aside is linked below a root. -/
theorem sharedJoin_marks_needed :
    let d := Call.afterAll (sharedJoin ++ [.setFlags 2 none (some true)]) ⟨∅, []⟩
    let h := Call.afterAll (knotted ++ [.link 3 4]) ⟨∅, []⟩
    (d.plan.Acyclic ∧ ∃ d' d'', Optimize.markMpc.apply d = (.ok 1, d') ∧ d.plan.MarksNeeded d'.plan ∧
      (d.plan.remarked d'.plan).ncard = 1 ∧ Optimize.markMpc.apply d' = (.ok 0, d'') ∧
      d''.plan = d'.plan) ∧
    ∃ x, TransGen h.plan.Edge x x ∧
      Optimize.markMpc.apply h = (.error (.cycle (h.plan.describe x)), h) := by
  intro d h
  have hrange : ∀ cs, (Call.afterAll cs ⟨∅, []⟩).plan.InRange := fun cs =>
    (Call.linked_afterAll cs).inRange
  have hsort : (d.plan.topSort true).toOption = some [0, 1, 2, 3] := by decide +kernel
  have hknot : (h.plan.topSort true).toOption = none := by decide +kernel
  have hacyclic : d.plan.Acyclic := Plan.acyclic_of_topSort (toOption_eq_some.mp hsort)
  have hcyclic : ¬ h.plan.Acyclic := by
    intro ha
    obtain ⟨order, horder, _⟩ := ha.topSort_eq_ok (hrange _) true
    rw [horder] at hknot
    cases hknot
  obtain ⟨k, d', d'', hrun, hmarks, hk, hagain, hsame⟩ := (markMpc_marks_needed d (hrange _)).1 hacyclic
  obtain ⟨x, _, hpath, hrefused⟩ := (markMpc_marks_needed h (hrange _)).2 hcyclic
  have hanswer : (Optimize.markMpc.apply d).1 = .ok 1 := by decide +kernel
  rw [hrun] at hanswer
  cases hanswer
  exact ⟨⟨hacyclic, d', d'', hrun, hmarks, hk.symm, hagain, hsame⟩, x, hpath, hrefused⟩

end PartyPlan
