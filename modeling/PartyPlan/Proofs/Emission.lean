import PartyPlan.Proofs.Caching
import PartyPlan.Proofs.Ordering

/-! The code that is made of a plan. Nodes are put into words one after the other in the order of the sorted
plan, so a job has the code of every node some root leads to, each once and after its inputs. A backend
without words for some kind of operator is stopped by the first node of such a kind. -/
open Relation (TransGen)

namespace PartyPlan

theorem exists_first {α : Type} {P : α → Prop} {l : List α} (h : ∃ x ∈ l, P x) :
    ∃ done x rest, l = done ++ x :: rest ∧ (∀ y ∈ done, ¬ P y) ∧ P x := by
  classical
  obtain ⟨x, hx⟩ : ∃ x, l.find? (fun x => decide (P x)) = some x := by
    rw [← Option.isSome_iff_exists, List.find?_isSome]
    simpa using h
  obtain ⟨hp, done, rest, hl, hdone⟩ := List.find?_eq_some_iff_append.mp hx
  exact ⟨done, x, rest, hl, by simpa using hdone, of_decide_eq_true hp⟩

namespace Plan

/-- A list has every node some root leads to, each once and before its children. -/
structure Sorts (g : Plan) (order : List NodeId) : Prop where
  nodup : order.Nodup
  mem : ∀ x, x ∈ order ↔ g.Reaches x
  before : ∀ p c, g.Reaches p → c ∈ g.childrenOf p → order.idxOf p < order.idxOf c

variable {g : Plan} {order : List NodeId} {byName : Bool}

theorem topSort_sorts (h : g.topSort byName = .ok order) : g.Sorts order :=
  ⟨(topSort_places h).1, (topSort_places h).2, fun _ _ hp he => topSort_idxOf_lt h hp he⟩

/-- A sorted plan has a fingerprint if the sources of its reachable nodes are there. -/
theorem exists_fingerprint (ho : g.topSort byName = .ok order)
    (hs : ∀ x n, g.Reaches x → g.get? x = some n → ∀ p ∈ n.sources, p < g.size) :
    ∃ digest, g.fingerprint byName = .ok digest := by
  have hentry : ∀ x ∈ order, ∃ e, g.fingerprintEntry x = .ok e := by
    intro x hx
    have hreach := reaches_of_mem_topSort ho hx
    obtain ⟨n, hn⟩ := exists_fetch (grounded_of_topSort ho x hreach)
    obtain ⟨ps, hps⟩ := exists_mapM_eq_ok.mpr fun p hp =>
      exists_fetch (hs x n hreach (fetch_eq_ok.mp hn) p hp)
    exact ⟨_, except_bind_eq_ok.mpr ⟨n, hn, except_bind_eq_ok.mpr ⟨ps, hps, rfl⟩⟩⟩
  obtain ⟨es, hes⟩ := exists_mapM_eq_ok.mpr hentry
  exact ⟨_, fingerprint_eq_ok.mpr ⟨es, except_bind_eq_ok.mpr ⟨order, ho, hes⟩, rfl⟩⟩

end Plan

namespace Backend
open Plan

variable {σ : Type}

/-- A backend with rules for some kinds of operators. A rule makes code of every node of its kind, and may
change what the backend keeps in mind. -/
def ofRules (name : String) (rules : Kind → Option (Plan → Node → σ → String × σ))
    (frame : String → String → σ → String × σ) (state : σ) : Backend σ where
  name := name
  state := state
  fragment kind g n := (rules kind).map fun rule s => (rule g n s).map .ok id
  frame title code s := (frame title code s).map .ok id

/-- With `s` in mind a backend has code for the node of a number, and then has `s'` in mind. -/
def Emits (b : Backend σ) (g : Plan) (x : NodeId) (s : σ) (code : String) (s' : σ) : Prop :=
  ∃ n work, g.get? x = some n ∧ b.fragment n.kind g n = some work ∧ work s = (.ok code, s')

inductive EmitsAll (b : Backend σ) (g : Plan) : List NodeId → σ → List String → σ → Prop where
  | nil (s : σ) : EmitsAll b g [] s [] s
  | cons {x : NodeId} {rest : List NodeId} {s s₁ s₂ : σ} {code : String} {codes : List String}
    (first : b.Emits g x s code s₁) (later : EmitsAll b g rest s₁ codes s₂) :
    EmitsAll b g (x :: rest) s (code :: codes) s₂

/-- A job holds the code of each node of an order, framed, and counts the nodes some root leads to. Each
piece of code is made with what the one before has left in mind, and the frame last. -/
structure Makes (b : Backend σ) (g : Plan) (title : String) (deterministic : Bool)
    (order : List NodeId) (job : Job) : Prop where
  name : job.name = title
  backend : job.backend = b.name
  code : ∃ codes s, b.EmitsAll g order b.state codes s ∧
    b.frame title (String.join codes) s = (.ok job.code, (b.generate g title deterministic).2.2)
  ops : job.ops = {x | g.Reaches x}.ncard
  codeDigest : job.codeDigest = .ofText job.code
  planFingerprint : g.fingerprint deterministic = .ok job.planFingerprint

variable {b : Backend σ} {g : Plan} {x : NodeId} {n : Node} {order done rest : List NodeId}
  {title code : String} {codes : List String} {s s' : σ} {byName : Bool}

theorem Emits.emitAll_cons (h : b.Emits g x s code s') (rest : List NodeId) :
    ∃ event, b.emitAll g (x :: rest) s = ((b.emitAll g rest s').1.map (code ++ ·),
      event :: (b.emitAll g rest s').2.1, (b.emitAll g rest s').2.2) := by
  obtain ⟨n, work, hn, hf, hwork⟩ := h
  exact ⟨emitted x n code, by simp [emitAll, fetch_eq_ok.mpr hn, emit, emitAs, hf, hwork]⟩

/-- What comes first is emitted first. -/
theorem EmitsAll.emitAll_append (h : b.EmitsAll g done s codes s') (rest : List NodeId) :
    ∃ events, b.emitAll g (done ++ rest) s = ((b.emitAll g rest s').1.map (String.join codes ++ ·),
      events ++ (b.emitAll g rest s').2.1, (b.emitAll g rest s').2.2) := by
  induction h with
  | nil s =>
    refine ⟨[], ?_⟩
    cases hcode : (b.emitAll g rest s).1 <;> simp [Except.map, ← hcode]
  | cons first _ ih =>
    obtain ⟨events, hlater⟩ := ih
    obtain ⟨event, hfirst⟩ := first.emitAll_cons (_ ++ rest)
    refine ⟨event :: events, ?_⟩
    rw [List.cons_append, hfirst, hlater]
    cases (b.emitAll g rest _).1 <;> simp [Except.map, String.append_assoc]

/-- If no node can stop a backend, it gets through the list. -/
theorem exists_emitsAll (h : ∀ y ∈ order, ∀ s, ∃ code s', b.Emits g y s code s') (s : σ) :
    ∃ codes s', b.EmitsAll g order s codes s' := by
  induction order generalizing s with
  | nil => exact ⟨[], s, .nil s⟩
  | cons x order ih =>
    obtain ⟨code, s₁, hfirst⟩ := h x (by simp) s
    obtain ⟨codes, s₂, hlater⟩ := ih (fun y hy => h y (by simp [hy])) s₁
    exact ⟨code :: codes, s₂, .cons hfirst hlater⟩

/-- A plan that cannot be sorted has no code. -/
theorem generate_unsorted {e : Error} (ho : g.topSort byName = .error e) :
    (b.generate g title byName).1 = .error (.plan e) := by simp [generate, ho]

/-- The first node without code leaves the plan without any, and those after it are not looked at. -/
theorem generate_unsupported (ho : g.topSort byName = .ok (done ++ x :: rest))
    (hdone : b.EmitsAll g done b.state codes s) (hn : g.get? x = some n)
    (hf : b.fragment n.kind g n = none) :
    (b.generate g title byName).1 = .error (.unsupported b.name n.kind n.id) ∧
      (b.generate g title byName).2.2 = s := by
  have hstop : b.emitAll g (x :: rest) s = (.error (.unsupported b.name n.kind n.id), [], s) := by
    simp [emitAll, fetch_eq_ok.mpr hn, emit, emitAs, hf]
  obtain ⟨events, hemit⟩ := hdone.emitAll_append (x :: rest)
  rw [hstop] at hemit
  simp [generate, ho, hemit, Except.map]

/-- Where every node has code and the plan a fingerprint, there is a job. -/
theorem generate_makes (ho : g.topSort byName = .ok order)
    (hall : b.EmitsAll g order b.state codes s)
    (hframe : b.frame title (String.join codes) s = (.ok code, s'))
    (hs : ∀ y m, g.Reaches y → g.get? y = some m → ∀ p ∈ m.sources, p < g.size) :
    ∃ job, (b.generate g title byName).1 = .ok job ∧ b.Makes g title byName order job := by
  obtain ⟨digest, hdigest⟩ := exists_fingerprint ho hs
  have hops : order.length = {x | g.Reaches x}.ncard :=
    (ncard_eq_length (topSort_sorts ho).nodup fun y => ((topSort_sorts ho).mem y).symm).symm
  obtain ⟨events, hemit⟩ := hall.emitAll_append []
  rw [List.append_nil] at hemit
  let job : Job :=
    { name := title, backend := b.name, code, ops := order.length, codeDigest := .ofText code,
      planFingerprint := digest }
  have hjob : b.generate g title byName = (.ok job, events ++ [generated job], s') := by
    simp [generate, ho, hemit, emitAll, Except.map, hframe, hdigest, job]
  exact ⟨job, by rw [hjob], rfl, rfl, ⟨codes, s, hall, by rw [hjob, hframe]⟩, hops, rfl, hdigest⟩

/-! Backends by rules. -/

section Rules

variable {backend : String} {rules : Kind → Option (Plan → Node → σ → String × σ)}
  {frame : String → String → σ → String × σ} {state : σ}

theorem exists_emits_ofRules (hn : g.get? x = some n) (hr : (rules n.kind).isSome) (s : σ) :
    ∃ code s', (ofRules backend rules frame state).Emits g x s code s' := by
  obtain ⟨rule, hrule⟩ := Option.isSome_iff_exists.mp hr
  exact ⟨_, _, n, _, hn, congrArg (Option.map _) hrule, rfl⟩

theorem exists_emitsAll_ofRules (hg : g.InRange) (hreach : ∀ y ∈ order, g.Reaches y)
    (hruled : ∀ y ∈ order, ∀ m, g.get? y = some m → (rules m.kind).isSome) :
    ∃ codes s, (ofRules backend rules frame state).EmitsAll g order state codes s := by
  refine exists_emitsAll (fun y hy => ?_) state
  obtain ⟨m, hm⟩ := lt_size_iff.mp (hg.reaches_lt (hreach y hy))
  exact exists_emits_ofRules hm (hruled y hy m hm)

theorem generate_ofRules_makes (hg : g.InRange)
    (hs : ∀ i n, g.get? i = some n → ∀ p ∈ n.sources, p < g.size)
    (ho : g.topSort byName = .ok order)
    (hall : ∀ x n, g.Reaches x → g.get? x = some n → (rules n.kind).isSome) :
    ∃ job, ((ofRules backend rules frame state).generate g title byName).1 = .ok job ∧
      (ofRules backend rules frame state).Makes g title byName order job := by
  have hreach : ∀ y ∈ order, g.Reaches y := fun y hy => ((topSort_sorts ho).mem y).mp hy
  obtain ⟨codes, s, hcodes⟩ :=
    exists_emitsAll_ofRules hg hreach fun y hy m hm => hall y m (hreach y hy) hm
  exact generate_makes ho hcodes rfl fun y m _ => hs y m

theorem generate_ofRules_unsupported (hid : ∀ i n, g.get? i = some n → n.id = i) (hg : g.InRange)
    (ho : g.topSort byName = .ok order)
    (hlacks : ∃ x n, g.Reaches x ∧ g.get? x = some n ∧ rules n.kind = none) :
    ∃ done x rest n, order = done ++ x :: rest ∧
      (∀ y ∈ done, ∀ m, g.get? y = some m → (rules m.kind).isSome) ∧
      g.get? x = some n ∧ rules n.kind = none ∧
      let b := ofRules backend rules frame state
      (b.generate g title byName).1 = .error (.unsupported backend n.kind x) ∧
        ∃ codes, b.EmitsAll g done state codes (b.generate g title byName).2.2 := by
  have hmem : ∃ x ∈ order, ∃ n, g.get? x = some n ∧ rules n.kind = none := by
    obtain ⟨x, n, hx, hn⟩ := hlacks
    exact ⟨x, ((topSort_sorts ho).mem x).mpr hx, n, hn⟩
  obtain ⟨done, x, rest, rfl, hdone, n, hn, hr⟩ := exists_first hmem
  have hruled : ∀ y ∈ done, ∀ m, g.get? y = some m → (rules m.kind).isSome := by
    intro y hy m hm
    by_contra hnone
    exact hdone y hy ⟨m, hm, by simpa using hnone⟩
  refine ⟨done, x, rest, n, rfl, hruled, hn, hr, ?_⟩
  have hreach : ∀ y ∈ done, g.Reaches y := fun y hy => ((topSort_sorts ho).mem y).mp (by simp [hy])
  obtain ⟨codes, s, hcodes⟩ := exists_emitsAll_ofRules hg hreach hruled
  have hnone : (ofRules backend rules frame state).fragment n.kind g n = none := by simp [ofRules, hr]
  intro b
  obtain ⟨hstop, hstate⟩ : (b.generate g title byName).1 = .error (.unsupported backend n.kind n.id) ∧
      (b.generate g title byName).2.2 = s := generate_unsupported ho hcodes hn hnone
  rw [hid x n hn] at hstop
  exact ⟨hstop, codes, hstate ▸ hcodes⟩

end Rules

theorem generate_cyclic (hg : g.InRange) (hcyclic : ¬ g.Acyclic) :
    ∃ x, g.Reaches x ∧ TransGen g.Edge x x ∧
      (b.generate g title byName).1 = .error (.plan (.cycle (g.describe x))) := by
  rcases topSort_spec hg.grounded byName with ⟨order, ho, _⟩ | ⟨x, ho, hreach, hpath⟩
  · exact absurd (acyclic_of_topSort ho) hcyclic
  · exact ⟨x, hreach, hpath, generate_unsorted ho⟩

end Backend

namespace Listing
open Backend Plan

variable {g : Plan} {x : NodeId} {n : Node} {title : String} {order : List NodeId} {byName : Bool}

/-- A listing has a line for every node. -/
theorem emits_line (showIds : Bool) (hn : g.get? x = some n) (s : Unit) :
    (backend showIds).Emits g x s (line showIds g n (parameters n)) s :=
  ⟨n, _, hn, congrArg (Option.map _) (detail_eq n), rfl⟩

theorem generate_makes (showIds : Bool) (ho : g.topSort byName = .ok order)
    (hs : ∀ x n, g.Reaches x → g.get? x = some n → ∀ p ∈ n.sources, p < g.size) :
    ∃ job, ((backend showIds).generate g title byName).1 = .ok job ∧
      (backend showIds).Makes g title byName order job := by
  have hemits : ∀ y ∈ order, ∀ s, ∃ code s', (backend showIds).Emits g y s code s' := by
    intro y hy s
    obtain ⟨m, hm⟩ := lt_size_iff.mp (grounded_of_topSort ho y (reaches_of_mem_topSort ho hy))
    exact ⟨_, s, emits_line showIds hm s⟩
  obtain ⟨codes, s, hcodes⟩ := exists_emitsAll hemits (backend showIds).state
  exact Backend.generate_makes ho hcodes rfl hs

end Listing

/-- Code made of a plan whose numbers all lead to nodes, by a backend with rules for any kinds of operators,
which may keep anything in mind from node to node. Where the plan can be sorted and there is a rule for
every node some root leads to, their code in the order of the sorted plan makes the job; else the first node
in this order without a rule is named, and only those before it have been put into code. A plan with a cycle
below a root has no code, for a node on a cycle. The listing has words for every operator. -/
theorem generate_exact (g : Plan) (hid : ∀ i n, g.get? i = some n → n.id = i) (hg : g.InRange)
    (hsources : ∀ i n, g.get? i = some n → ∀ p ∈ n.sources, p < g.size) (title : String)
    (deterministic : Bool) :
    (∀ (σ : Type) backend rules frame (state : σ), let b := Backend.ofRules backend rules frame state
      (∀ order, g.topSort deterministic = .ok order → g.Sorts order ∧
        ((∀ x n, g.Reaches x → g.get? x = some n → (rules n.kind).isSome) →
          ∃ job, (b.generate g title deterministic).1 = .ok job ∧
            b.Makes g title deterministic order job) ∧
        ((∃ x n, g.Reaches x ∧ g.get? x = some n ∧ rules n.kind = none) →
          ∃ done x rest n, order = done ++ x :: rest ∧
            (∀ y ∈ done, ∀ m, g.get? y = some m → (rules m.kind).isSome) ∧
            g.get? x = some n ∧ rules n.kind = none ∧
            (b.generate g title deterministic).1 = .error (.unsupported backend n.kind x) ∧
            ∃ codes, b.EmitsAll g done state codes (b.generate g title deterministic).2.2)) ∧
      (¬ g.Acyclic → ∃ x, g.Reaches x ∧ TransGen g.Edge x x ∧
        (b.generate g title deterministic).1 = .error (.plan (.cycle (g.describe x))))) ∧
    ∀ showIds, let b := Listing.backend showIds
      (g.Acyclic → ∃ order job, g.topSort deterministic = .ok order ∧
        (b.generate g title deterministic).1 = .ok job ∧ b.Makes g title deterministic order job) ∧
      ∀ backend kind x, (b.generate g title deterministic).1 ≠ .error (.unsupported backend kind x) := by
  refine ⟨fun σ backend rules frame state => ⟨fun order ho => ⟨Plan.topSort_sorts ho, fun hall => ?_,
    fun hlacks => ?_⟩, fun hcyclic => ?_⟩, fun showIds => ?_⟩
  · exact Backend.generate_ofRules_makes hg hsources ho hall
  · exact Backend.generate_ofRules_unsupported hid hg ho hlacks
  · exact Backend.generate_cyclic hg hcyclic
  · have hlisted : g.Acyclic → ∃ order job, g.topSort deterministic = .ok order ∧
        ((Listing.backend showIds).generate g title deterministic).1 = .ok job ∧
        (Listing.backend showIds).Makes g title deterministic order job := by
      intro ha
      obtain ⟨order, ho, _⟩ := ha.topSort_eq_ok hg deterministic
      obtain ⟨job, hjob⟩ := Listing.generate_makes showIds ho fun x n _ => hsources x n
      exact ⟨order, job, ho, hjob⟩
    refine ⟨hlisted, fun backend kind x hstop => ?_⟩
    by_cases ha : g.Acyclic
    · obtain ⟨_, _, _, hjob, _⟩ := hlisted ha
      cases hjob.symm.trans hstop
    · obtain ⟨_, _, _, hcycle⟩ := Backend.generate_cyclic hg ha
      cases hcycle.symm.trans hstop

def namesOf (kinds : List Kind) (kind : Kind) : Option (Plan → Node → Nat → String × Nat) :=
  if kind ∈ kinds then some fun _ n i => (toString i ++ n.output.name, i + 1) else none

/-- Two ways lead to a node, and a loop stands aside until it is linked. The backends count their lines. -/
theorem knotted_generate_exact :
    let g := (Call.afterAll knotted ⟨∅, []⟩).plan
    let h := (Call.afterAll (knotted ++ [.link 3 4]) ⟨∅, []⟩).plan
    let few := Backend.ofRules "few" (namesOf [.create]) (fun _ code i => (code, i)) 0
    let all := Backend.ofRules "all" (namesOf [.create, .concat]) (fun _ code i => (code, i)) 0
    (∃ job, (all.generate g "t" true).1 = .ok job ∧ all.Makes g "t" true [0, 1, 2, 3] job) ∧
    (∃ done rest codes, [0, 1, 2, 3] = done ++ 1 :: rest ∧
      (few.generate g "t" true).1 = .error (.unsupported "few" .concat 1) ∧
      few.EmitsAll g done 0 codes (few.generate g "t" true).2.2) ∧
    (∃ x, TransGen h.Edge x x ∧ (all.generate h "t" false).1 = .error (.plan (.cycle (h.describe x)))) ∧
    ∃ order job, ((Listing.backend true).generate g "t" true).1 = .ok job ∧
      (Listing.backend true).Makes g "t" true order job := by
  intro g h few all
  have hg : g.Linked := Call.linked_afterAll _
  have hh : h.Linked := Call.linked_afterAll _
  have hsources : ∀ k : Plan, (∀ n ∈ k.nodes.toList, ∀ p ∈ n.sources, p < k.size) →
      ∀ i n, k.get? i = some n → ∀ p ∈ n.sources, p < k.size := fun k hk i n hn =>
    hk n (Array.mem_toList_iff.mpr (Array.mem_of_getElem? hn))
  have hsort : g.topSort true = .ok [0, 1, 2, 3] := by decide +kernel
  have hknot : (h.topSort false).toOption = none := by decide +kernel
  obtain ⟨hcode, hlisting⟩ := generate_exact g (fun i n hn => (hg.nodes i n hn).id) hg.inRange
    (hsources g (by decide +kernel)) "t" true
  obtain ⟨hknotted, _⟩ := generate_exact h (fun i n hn => (hh.nodes i n hn).id) hh.inRange
    (hsources h (by decide +kernel)) "t" false
  have hkinds : ∀ n ∈ g.nodes.toList, (namesOf [.create, .concat] n.kind).isSome := by decide +kernel
  have hcyclic : ¬ h.Acyclic := by
    intro ha
    obtain ⟨order, ho, _⟩ := ha.topSort_eq_ok hh.inRange false
    rw [ho] at hknot
    cases hknot
  have hstop : (few.generate g "t" true).1 = .error (.unsupported "few" .concat 1) := by
    decide +kernel
  have hlacks : ∃ x n, g.Reaches x ∧ g.get? x = some n ∧ namesOf [.create] n.kind = none := by
    refine ⟨1, _, .child (.root (show 0 ∈ g.roots by decide)) (show 1 ∈ g.childrenOf 0 by decide), rfl,
      rfl⟩
  refine ⟨?_, ?_, ?_, ?_⟩
  · exact ((hcode Nat "all" (namesOf [.create, .concat]) (fun _ code i => (code, i)) 0).1 _ hsort).2.1 fun x n _ hn =>
      hkinds n (Array.mem_toList_iff.mpr (Array.mem_of_getElem? hn))
  · obtain ⟨done, x, rest, n, horder, _, _, _, hfirst, codes, hcodes⟩ :=
      ((hcode Nat "few" (namesOf [.create]) (fun _ code i => (code, i)) 0).1 _ hsort).2.2 hlacks
    have hx : x = 1 := by
      have hboth := hfirst.symm.trans hstop
      simp only [Except.error.injEq, CodegenError.unsupported.injEq] at hboth
      exact hboth.2.2
    exact ⟨done, rest, codes, hx ▸ horder, hstop, hcodes⟩
  · obtain ⟨x, _, hpath, hcycle⟩ :=
      (hknotted Nat "all" (namesOf [.create, .concat]) (fun _ code i => (code, i)) 0).2 hcyclic
    exact ⟨x, hpath, hcycle⟩
  · obtain ⟨order, job, _, hjob⟩ := (hlisting true).1 (Plan.acyclic_of_topSort hsort)
    exact ⟨order, job, hjob⟩

end PartyPlan
