import PartyPlan.Proofs.Optimization

/-! A second pass finds nothing to do. The first one has left no join about which the settings would decide
anything, though each decision was made on a plan that later ones have changed, and every node has the mark
it needs. On such a plan a pass changes nothing. -/
namespace PartyPlan

namespace Plan

variable {g h : Plan} {cfg : Config} {id : NodeId}

theorem Marked.valid (hm : g.Marked h) (hg : g.Valid) : h.Valid where
  edges p c := by
    rw [hm.parentsOf, hm.childrenOf]
    exact hg.edges p c
  nodes i n hn := by
    obtain ⟨m, b, hget, rfl⟩ := hm.of_get? hn
    obtain ⟨named, covered, bound, distinct⟩ := hg.nodes i m hget
    exact ⟨named, covered, bound, distinct⟩
  roots r hr := by
    rw [hm.size, hm.parentsOf]
    exact hg.roots r (hm.roots ▸ hr)

theorem Marked.settled (hm : g.Marked h) (hg : g.Settled) : h.Settled where
  places i n hn := by
    obtain ⟨m, b, hget, rfl⟩ := hm.of_get? hn
    exact hg.places i m hget
  valid := hm.valid hg.valid
  current i n hn := by
    obtain ⟨m, b, hget, rfl⟩ := hm.of_get? hn
    rw [hm.operatorInputs]
    exact hg.current i m hget
  acyclic := hm.mirrors.acyclic hg.valid.inRange hg.acyclic

theorem Marked.reaches_iff (hm : g.Marked h) (hg : g.InRange) : h.Reaches id ↔ g.Reaches id := by
  constructor
  · intro hr
    obtain ⟨i, hi, rfl⟩ := hm.mirrors.reaches_inv hg hr
    exact hi
  · exact fun hr => hm.mirrors.reaches hr

/-- Where nothing is decided about a node, the settings have no special form for it. -/
theorem candidates_of_undecided (hv : g.Valid) (hid : id < g.size)
    (hno : ∀ dec, ¬ g.Decides cfg id dec) :
    (cfg.hybridJoins = true → g.hybridCandidate id = .ok none) ∧
      (cfg.revealJoins = true → g.revealCandidate id = .ok none) := by
  constructor
  · intro hon
    obtain ⟨answer, hask, htrusts⟩ := hybridCandidate_decides hv hid
    cases answer with
    | none => exact hask
    | some p =>
      obtain ⟨s, hs, hmpc, ht⟩ := (htrusts p).mp rfl
      exact absurd ⟨s, hs, hmpc, hon, ht⟩ (hno (.hybrid p))
  · intro hon
    obtain ⟨answer, hask, hshows⟩ := revealCandidate_decides hv hid
    cases answer with
    | none => exact hask
    | some choice =>
      obtain ⟨s, hs, hmpc, ht⟩ := (hshows choice).mp rfl
      refine absurd ⟨s, hs, hmpc, fun hhybrid p htrust => ?_, hon, ht⟩ (hno (.reveal choice.1 choice.2))
      exact hno (.hybrid p) ⟨s, hs, hmpc, hhybrid, htrust⟩

/-- Nothing is decided about any node some root leads to, and all of them have the marks they need. -/
structure Optimized (g : Plan) (cfg : Config) : Prop where
  undecided : ∀ j, g.Reaches j → ∀ dec, ¬ g.Decides cfg j dec
  marked : ∀ j, g.Reaches j → g.unmarked j = false

end Plan

namespace Optimize
open Edit Plan

variable {g h : Plan} {cfg : Config} {order ids : List NodeId} {forms : List Form}
  {f : NodeId → NodeId} {r : OptimizeReport}

/-! A pass leaves nothing to do. -/

/-- The joins about which something was decided have moved to where they have their special forms, and
about the others there is still nothing to decide. -/
theorem Decided.undecided (hd : Decided g cfg order forms f r h) (hv : g.Valid)
    (horder : ∀ j, g.Reaches j → j ∈ order) {j : NodeId} (hj : h.Reaches j) (dec : Decision) :
    ¬ h.Decides cfg j dec := by
  obtain ⟨i, hi, rfl⟩ := hd.mirrors.reaches_inv hv.inRange hj
  by_cases hform : ∃ form ∈ forms, form.join = i
  · obtain ⟨form, hform, rfl⟩ := hform
    obtain ⟨s, m, _, hm, hop⟩ := hd.built form hform
    rintro ⟨s', ⟨n, _, _, hn, hjoin, _⟩, _⟩
    rw [hd.moved form hform] at hn
    cases hm.symm.trans hn
    rw [hop] at hjoin
    cases hdec : form.decision <;> rw [hdec] at hjoin <;> cases hjoin
  · push Not at hform
    have hf : f i = i := hd.stayed i hform
    rw [hf, hd.mirrors.decides_iff hv (hv.inRange.reaches_lt hi) hf]
    intro hdec
    obtain ⟨new, hmem⟩ := (hd.decisions i dec).mpr ⟨horder i hi, hdec⟩
    exact hform _ hmem rfl

theorem unmarked_sorted (hg : g.InRange) (horder : g.topSort true = .ok order) {j : NodeId}
    (hj : (g.marking order).Reaches j) : (g.marking order).unmarked j = false := by
  refine unmarked_marking (((topSort_places horder).2 j).mpr ?_)
  exact ((marked_marking g order).reaches_iff hg).mp hj

theorem run_optimized (hg : g.Settled) (hcfg : cfg.check = .ok ()) :
    Meets (· = g) (run cfg) (fun _ h => h.Settled ∧ h.Optimized cfg) fun _ _ => False := by
  refine run_meets (I := fun r h => h.Settled ∧ ∃ order forms f,
    (∀ j, g.Reaches j → j ∈ order) ∧ Decided g cfg order forms f r h) hg hcfg (fun order horder => ?_) ?_
  · refine (chooseAll_sorted hg horder).mono (fun _ hh => hh) ?_ fun _ _ hh => hh
    rintro r h ⟨hs, forms, f, hd⟩
    exact ⟨hs, hs, order, forms, f, fun j hj => ((topSort_places horder).2 j).mpr hj, hd⟩
  · rintro r h sorted ⟨hs, order, forms, f, horder, hd⟩ hsorted
    have hm := marked_marking h sorted
    refine ⟨hm.settled hs, fun j hj dec => ?_, fun j hj => unmarked_sorted hs.valid.inRange hsorted hj⟩
    exact (hd.marked hg.valid.inRange hm 0).undecided hg.valid horder hj dec

/-! A pass that has nothing to do does nothing. -/

theorem chooseAll_idle (hg : g.Settled) (ho : g.Optimized cfg) (hids : ∀ x ∈ ids, g.Reaches x)
    (r : OptimizeReport) :
    Meets (· = g) (chooseAll cfg ids r) (fun r' h => h = g ∧ r' = r) fun _ _ => False := by
  induction ids with
  | nil => exact Meets.pure fun _ hh => ⟨hh, rfl⟩
  | cons id ids ih =>
    have hr := hids id (by simp)
    refine Meets.bind (M := fun c h => h = g ∧ c = .unchanged)
      ((choose_made cfg hg hr).mono (fun _ hh => hh) (fun c h hh => ?_) fun _ _ hh => hh) fun c =>
        Meets.of_fact fun hc => ?_
    · rcases hh with ⟨hc, hh, _⟩ | ⟨_, dec, _, _, hdec, _⟩
      · exact ⟨hh, hc⟩
      · exact absurd hdec (ho.undecided id hr dec)
    · rw [hc]
      exact ih fun x hx => hids x (by simp [hx])

theorem run_idle (hg : g.Settled) (ho : g.Optimized cfg) (hcfg : cfg.check = .ok ()) :
    Meets (· = g) (run cfg) (fun r h => h = g ∧ r = {}) fun _ _ => False := by
  refine run_meets (I := fun r h => h = g ∧ r = {}) hg hcfg (fun order horder => ?_) ?_
  · have hreach := fun x hx => reaches_of_mem_topSort (x := x) horder hx
    refine (chooseAll_idle hg ho hreach {}).mono (fun _ hh => hh) ?_ fun _ _ hh => hh
    rintro r h ⟨rfl, rfl⟩
    exact ⟨hg, rfl, rfl⟩
  · rintro r h order ⟨rfl, rfl⟩ horder
    have hmarked : ∀ i ∈ order, h.unmarked i = false := fun i hi =>
      ho.marked i (reaches_of_mem_topSort horder hi)
    have hcount : order.countP h.unmarked = 0 := by
      rw [List.countP_eq_zero]
      exact fun i hi => by simp [hmarked i hi]
    rw [marking_eq_self hmarked, hcount]
    exact ⟨rfl, rfl⟩

end Optimize

/-- On a plan that is ready the pass succeeds for every valid setting, and a second pass with the same
setting succeeds with nothing to report and leaves the plan as it is. After the first pass no node that
some root leads to could take a special form that the setting allows. -/
theorem optimize_idempotent (d : Draft) (cfg : Config) (h : d.plan.Ready) (hcfg : cfg.check = .ok ()) :
    ∃ r d' d'', (Optimize.run cfg).apply d = (.ok r, d') ∧
      (Optimize.run cfg).apply d' = (.ok {}, d'') ∧ d''.plan = d'.plan ∧
      ∀ j, d'.plan.Reaches j →
        (cfg.hybridJoins = true → d'.plan.hybridCandidate j = .ok none) ∧
        (cfg.revealJoins = true → d'.plan.revealCandidate j = .ok none) := by
  obtain ⟨r, d', hrun, hs, ho⟩ := (Optimize.run_optimized h.settled hcfg).succeeds rfl
  obtain ⟨r', d'', hagain, hsame, rfl⟩ := (Optimize.run_idle hs ho hcfg).succeeds rfl
  refine ⟨r, d', d'', hrun, hagain, hsame, fun j hj => ?_⟩
  exact Plan.candidates_of_undecided hs.valid (hs.valid.inRange.reaches_lt hj) (ho.undecided j hj)

/-- One join takes a special form, and the join that reads it twice remains and is marked. -/
theorem sharedJoin_idempotent :
    let d := Call.afterAll sharedJoin ⟨∅, []⟩
    d.plan.Ready ∧ Config.check {} = .ok () ∧
      ∃ d' d'', (Optimize.run {}).apply d = (.ok { hybridJoins := [4], mpcMarked := 1 }, d') ∧
        (Optimize.run {}).apply d' = (.ok {}, d'') ∧ d''.plan = d'.plan ∧
        ∀ j, d'.plan.Reaches j →
          d'.plan.hybridCandidate j = .ok none ∧ d'.plan.revealCandidate j = .ok none := by
  have hcfg : Config.check {} = .ok () := by decide
  obtain ⟨r, d', d'', hrun, hagain, hsame, hnone⟩ :=
    optimize_idempotent (Call.afterAll sharedJoin ⟨∅, []⟩) {} sharedJoin_ready hcfg
  have hreport : ((Optimize.run {}).apply (Call.afterAll sharedJoin ⟨∅, []⟩)).1 =
      .ok { hybridJoins := [4], mpcMarked := 1 } := by decide +kernel
  rw [hrun] at hreport
  cases hreport
  exact ⟨sharedJoin_ready, hcfg, d', d'', hrun, hagain, hsame, fun j hj =>
    ⟨(hnone j hj).1 rfl, (hnone j hj).2 rfl⟩⟩

end PartyPlan
