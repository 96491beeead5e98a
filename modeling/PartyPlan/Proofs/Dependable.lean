import PartyPlan.Proofs.Bounds
import PartyPlan.Proofs.Coherence
import PartyPlan.Proofs.Emission
import PartyPlan.Proofs.Marks

/-! What works with a plan depends on its numbers. Validation compares the records of a plan with the numbers
its nodes give themselves, which need not be their places; still, a plan that passes it is followed by
readers, by the optimizing pass and by the makers of code without a miss. -/
namespace PartyPlan

theorem Unmissed.of_ok {α : Type} {x : Except Error α} (h : ∃ a, x = .ok a) : Unmissed x := by
  obtain ⟨a, rfl⟩ := h
  exact .ok a

namespace Optimize
open Edit

variable {k id : Nat}

theorem verify_safe (cfg : Config) : Safe k (verify cfg) := by
  unfold verify
  split
  · exact Safe.ask fun g _ => g.validate_unmissed
  · exact Safe.pure ()

theorem attempt_safe {α : Type} {question : Plan → Except Error (Option α)} {make : α → Edit NodeId}
    (cfg : Config) (on : Bool) (hask : ∀ g, g.Bounded k → ∃ answer, question g = .ok answer)
    (hmake : ∀ a, Safe k (make a)) : Safe k (attempt cfg on question make) := by
  unfold attempt
  split
  · exact Safe.pure none
  refine Safe.bind (Safe.ask fun g hg => .of_ok (hask g hg)) fun answer => ?_
  cases answer with
  | none => exact Safe.pure none
  | some a => exact (hmake a).bind fun new => (verify_safe cfg).bind fun _ => Safe.pure (some new)

theorem tryHybrid_safe (cfg : Config) (hid : id < k) : Safe k (tryHybrid cfg id) := by
  rw [tryHybrid_eq]
  refine attempt_safe cfg _ (fun g hg => ?_) (Specialize.hybridJoin_safe id)
  obtain ⟨answer, hanswer, _⟩ := Plan.hybridCandidate_eq_ok (hid.trans_le hg.size)
  exact ⟨answer, hanswer⟩

theorem tryReveal_safe (cfg : Config) (hid : id < k) : Safe k (tryReveal cfg id) := by
  rw [tryReveal_eq]
  refine attempt_safe cfg _ (fun g hg => ?_) fun choice => Specialize.revealJoin_safe id choice.1 choice.2
  obtain ⟨answer, hanswer, _⟩ :=
    Plan.revealCandidate_eq_ok (fun _ => hg.join_inputs) (hid.trans_le hg.size)
  exact ⟨answer, hanswer⟩

theorem warnOf_safe (hid : id < k) : Safe k (warnOf id) := by
  refine Safe.bind (Safe.ask fun g hg => .of_ok (Plan.requiresMpc_eq_ok (hid.trans_le hg.size)))
    fun needed => ?_
  split
  · exact Safe.bind (Safe.fetch hid) fun _ => Safe.report _
  · exact Safe.pure ()

/-- One step of the pass. -/
theorem choose_safe (cfg : Config) (hid : id < k) : Safe k (choose cfg id) := by
  refine Safe.bind (Safe.fetch hid) fun n => ?_
  split
  · exact Safe.pure _
  refine Safe.bind (tryHybrid_safe cfg hid) fun form => ?_
  cases form with
  | some new => exact Safe.pure _
  | none =>
    refine Safe.bind (tryReveal_safe cfg hid) fun form => ?_
    cases form with
    | some new => exact Safe.pure _
    | none => exact Safe.bind (warnOf_safe hid) fun _ => Safe.pure _

/-- The order was found before the first step, and no step takes a node away. -/
theorem chooseAll_safe (cfg : Config) {ids : List NodeId} (hids : ∀ id ∈ ids, id < k)
    (r : OptimizeReport) : Safe k (chooseAll cfg ids r) := by
  induction ids generalizing r with
  | nil => exact Safe.pure r
  | cons id ids ih =>
    refine Safe.bind (choose_safe cfg (hids id (by simp))) fun choice => ?_
    exact ih (fun x hx => hids x (by simp [hx])) (r.add choice)

theorem markMpc_unmissed :
    Meets (Plan.Bounded k) markMpc (fun _ _ => True) fun e _ => ¬ e.Misses := by
  refine Meets.of_each fun g hg => ?_
  rcases Plan.topSort_spec hg.inRange.grounded true with ⟨order, horder, _⟩ | ⟨x, hx, _⟩
  · exact (markMpc_exact hg.inRange horder).mono (fun _ hh => hh) (fun _ _ _ => trivial)
      fun _ _ hh => hh.elim
  · rintro d rfl
    rw [markMpc_refused hx]
    exact not_false

/-- The whole pass. -/
theorem run_unmissed (cfg : Config) :
    Meets (Plan.Bounded k) (run cfg) (fun _ _ => True) fun e _ => ¬ e.Misses := by
  have hcheck : Unmissed cfg.check := by
    unfold Config.check
    split
    · exact .error not_false
    · exact .ok ()
  refine Meets.bind (M := fun _ => Plan.Bounded k) (Safe.settle hcheck) fun _ => ?_
  refine Meets.bind (M := fun order g => g.Bounded k ∧ g.topSort cfg.deterministic = .ok order)
    (Meets.ask (fun _ _ hg ho => ⟨hg, ho⟩) fun g e hg he => ?_) fun order => Meets.of_each fun g hg => ?_
  · rcases hg.inRange.readable.topSort cfg.deterministic with ⟨order, ho⟩ | ⟨x, hx⟩
    · cases ho.symm.trans he
    · cases hx.symm.trans he
      exact not_false
  · have hids : ∀ id ∈ order, id < g.size := fun id hid =>
      hg.1.inRange.reaches_lt (Plan.reaches_of_mem_topSort hg.2 hid)
    refine Meets.bind (M := fun _ => Plan.Bounded g.size) ((chooseAll_safe cfg hids {}).mono
      (fun _ hh => hh ▸ hg.1.full) (fun _ _ hh => hh) fun _ _ hh => hh) fun r => ?_
    exact Meets.bind markMpc_unmissed fun _ => Meets.bind (Meets.report fun _ hh => hh) fun _ =>
      Meets.pure fun _ hh => hh

end Optimize

theorem Operator.helpers_eq_nil {op : Operator}
    (h : op.kind ≠ .indexJoin ∧ op.kind ≠ .indexAggregate) : op.helpers = [] := by
  cases op with
  | indexJoin => exact absurd rfl h.1
  | indexAggregate => exact absurd rfl h.2
  | _ => rfl

namespace Plan

variable {g : Plan} {x : NodeId} {n : Node}

/-- Every question about a plan is answered, except that sorting it finds a cycle, and work on it is
refused for no number that leads to no node. -/
structure Dependable (g : Plan) : Prop where
  readable : g.Readable
  visitedNodes : ∃ nodes, g.visitedNodes = .ok nodes
  reachable : ∃ seen, g.reachable = .ok seen
  isReversible : ∀ id < g.size, ∃ b, g.isReversible id = .ok b
  revealCandidate : ∀ id < g.size, ∃ answer, g.revealCandidate id = .ok answer
  hybridCandidate : ∀ id < g.size, ∃ answer, g.hybridCandidate id = .ok answer
  markMpc : ∀ journal, Unmissed (Optimize.markMpc.apply ⟨g, journal⟩).1
  optimize : ∀ cfg journal, Unmissed ((Optimize.run cfg).apply ⟨g, journal⟩).1

theorem Bounded.unmissed {α : Type} {x : Edit α} {k : Nat} (hg : g.Bounded k)
    (h : Edit.Meets (Plan.Bounded k) x (fun _ _ => True) fun e _ => ¬ e.Misses) (journal : List Event) :
    Unmissed (x.apply ⟨g, journal⟩).1 := by
  rcases h.outcome (d := ⟨g, journal⟩) hg with ⟨e, d', hrun, he⟩ | ⟨a, d', hrun, _⟩
  · rw [hrun]
    exact .error he
  · rw [hrun]
    exact .ok a

theorem Bounded.dependable {k : Nat} (hg : g.Bounded k) : g.Dependable where
  readable := hg.inRange.readable
  visitedNodes := by
    obtain ⟨v, hv⟩ := hg.inRange.readable.visits
    exact ⟨_, by rw [Plan.visitedNodes, hv]; rfl⟩
  reachable := by
    obtain ⟨v, hv⟩ := hg.inRange.readable.visits
    exact ⟨_, by rw [Plan.reachable, hv]; rfl⟩
  isReversible id hid := by
    obtain ⟨n, hn⟩ := exists_fetch hid
    exact ⟨_, by rw [Plan.isReversible, hn]; rfl⟩
  revealCandidate id hid :=
    (revealCandidate_eq_ok (fun _ => hg.join_inputs) hid).imp fun _ h => h.1
  hybridCandidate id hid := (hybridCandidate_eq_ok hid).imp fun _ h => h.1
  markMpc := hg.unmissed Optimize.markMpc_unmissed
  optimize cfg := hg.unmissed (Optimize.run_unmissed cfg)

/-- A node below others has its sources among them; one below nothing has none, unless it refers to
helpers it once had. -/
theorem sources_lt_of_validate (h : g.validate = .ok ()) (hn : g.get? x = some n)
    (hplain : n.parents = ∅ → n.kind ≠ .indexJoin ∧ n.kind ≠ .indexAggregate) :
    ∀ p ∈ n.sources, p < g.size := by
  have htied : n.Tied := (checkNode_of_validate h hn).2.2
  intro p hp
  by_cases hnone : n.parents = ∅
  · rw [Node.sources, htied.ids_eq_nil hnone, Operator.helpers_eq_nil (hplain hnone)] at hp
    cases hp
  · rw [← IdSet.mem_ofList, htied.ofList_sources hnone] at hp
    exact ((bounded_of_validate h).nodes x n hn).parents p hp

theorem fingerprint_unsorted {e : Error} {byName : Bool} (h : g.topSort byName = .error e) :
    g.fingerprint byName = .error e := by
  simp only [fingerprint, fingerprintEntries, h, bind, Except.bind]

end Plan

/-- A plan that passes validation has a node for every number that is followed, whatever numbers its nodes
give themselves and whatever positions its columns name. It has a fingerprint and a listing too, if it has
no cycle below its roots, unless a node that some root leads to and that stands below nothing may refer to
helpers. -/
theorem dependable_of_validate (g : Plan) (h : g.validate = .ok ()) :
    g.Dependable ∧
    ((∀ x n, g.Reaches x → g.get? x = some n → n.parents = ∅ →
        n.kind ≠ .indexJoin ∧ n.kind ≠ .indexAggregate) →
      ∀ deterministic,
        (g.Acyclic → (∃ digest, g.fingerprint deterministic = .ok digest) ∧ ∀ showIds title,
          ∃ job, ((Listing.backend showIds).generate g title deterministic).1 = .ok job) ∧
        (¬ g.Acyclic → ∃ x, g.fingerprint deterministic = .error (.cycle (g.describe x)) ∧
          ∀ showIds title, ((Listing.backend showIds).generate g title deterministic).1 =
            .error (.plan (.cycle (g.describe x))))) := by
  have hg := Plan.bounded_of_validate h
  refine ⟨hg.dependable, fun hplain deterministic => ⟨fun ha => ?_, fun hcyclic => ?_⟩⟩
  · have hsources : ∀ x n, g.Reaches x → g.get? x = some n → ∀ p ∈ n.sources, p < g.size :=
      fun x n hx hn => Plan.sources_lt_of_validate h hn (hplain x n hx hn)
    obtain ⟨order, ho, _⟩ := ha.topSort_eq_ok hg.inRange deterministic
    refine ⟨Plan.exists_fingerprint ho hsources, fun showIds title => ?_⟩
    exact (Listing.generate_makes showIds ho hsources).imp fun _ hjob => hjob.1
  · rcases hg.inRange.readable.topSort deterministic with ⟨order, ho⟩ | ⟨x, hx⟩
    · exact absurd (Plan.acyclic_of_topSort ho) hcyclic
    · refine ⟨x, Plan.fingerprint_unsorted hx, fun showIds title => ?_⟩
      rw [Backend.generate_unsorted hx]

/-- A join of two relations that give themselves each other's number, by a key in a column that the left
one does not have. -/
def misnumbered : Plan where
  nodes := #[
    { Node.detached 1 .create ⟨"l", [⟨"l", "k", 0, .integer, .singleton 3⟩], .singleton 1⟩ with
      children := .singleton 2 },
    { Node.detached 0 .create ⟨"r", [⟨"r", "k", 0, .integer, .singleton 3⟩], .singleton 2⟩ with
      children := .singleton 2 },
    { Node.detached 2 (.join ⟨[⟨"l", "k", 5, .integer, .singleton 3⟩],
        [⟨"r", "k", 0, .integer, .singleton 3⟩]⟩) ⟨"j", [], .singleton 1⟩ with
      inputs := .binary (some 0) (some 1), parents := .ofList [0, 1] }]
  roots := .ofList [0, 1]

/-- A node that has lost its parents and still refers to an index that is not there. -/
def bereaved : Plan where
  nodes := #[Node.detached 0 (.indexJoin ⟨[], []⟩ 7) ⟨"j", [], ∅⟩]
  roots := .singleton 0

/-- The pass finds that a column is missing and no node. A root may still name a helper that is not there,
and only then is the fingerprint out of range. -/
theorem misnumbered_dependable :
    (∃ n, misnumbered.get? 0 = some n ∧ n.id ≠ 0) ∧ misnumbered.validate = .ok () ∧
    misnumbered.Dependable ∧
    (∃ fault, ((Optimize.run {}).apply ⟨misnumbered, []⟩).1 = .error (.schema fault)) ∧
    (∃ digest, misnumbered.fingerprint true = .ok digest) ∧
    bereaved.validate = .ok () ∧ bereaved.Dependable ∧
    bereaved.fingerprint true = .error (.outOfRange 1 7) := by
  have hvalid : misnumbered.validate = .ok () := by decide +kernel
  have hbereaved : bereaved.validate = .ok () := by decide +kernel
  have hsort : misnumbered.topSort true = .ok [0, 1, 2] := by decide +kernel
  have hone : bereaved.topSort true = .ok [0] := by decide +kernel
  have hkinds : ∀ n ∈ misnumbered.nodes.toList, n.kind ≠ .indexJoin ∧ n.kind ≠ .indexAggregate := by
    decide +kernel
  have hplain : ∀ i n, misnumbered.get? i = some n → n.kind ≠ .indexJoin ∧ n.kind ≠ .indexAggregate :=
    fun i n hn => hkinds n (Array.mem_toList_iff.mpr (Array.mem_of_getElem? hn))
  obtain ⟨hdependable, hmade⟩ := dependable_of_validate misnumbered hvalid
  have hmade := (hmade (fun x n _ hn _ => hplain x n hn) true).1 (Plan.acyclic_of_topSort hsort)
  refine ⟨⟨_, rfl, by decide⟩, hvalid, hdependable,
    ⟨.noCounterpart "l.k" 5 "l" 1, by decide +kernel⟩, hmade.1, hbereaved,
    (dependable_of_validate bereaved hbereaved).1, ?_⟩
  rw [Plan.fingerprint, Plan.fingerprintEntries, hone]
  rfl

end PartyPlan
