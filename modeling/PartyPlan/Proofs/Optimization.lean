import PartyPlan.Proofs.Decisions
import PartyPlan.Proofs.Freshness
import PartyPlan.Proofs.Marking

/-! The optimizing pass. It takes the joins one after the other, in an order found before the first of
them moved, decides about each on a plan that earlier decisions have changed, and then sets marks. What it
decides is what the first plan says, and a renaming that is carried along says what has become of that plan;
where all was in order it stays so, and no step is refused. -/
namespace PartyPlan

namespace Edit

variable {α β : Type} {P : Plan → Prop}

/-- Two ways to work that come to the same on every draft whose plan has a property. -/
def Agree (P : Plan → Prop) (x y : Edit α) : Prop := ∀ d : Draft, P d.plan → x.apply d = y.apply d

theorem Agree.refl (x : Edit α) : Agree P x x := fun _ _ => rfl

theorem Agree.bind {x y : Edit α} {u v : α → Edit β} {M : α → Plan → Prop} {R : Error → Plan → Prop}
    (h : Agree P x y) (hx : Meets P x M R) (huv : ∀ a, Agree (M a) (u a) (v a)) :
    Agree P (x >>= u) (y >>= v) := by
  intro d hd
  have hmid := hx d hd
  rw [apply_bind, apply_bind, ← h d hd]
  cases hres : x.apply d with
  | mk result next =>
    rw [hres] at hmid
    cases result with
    | ok a => exact huv a next hmid
    | error e => rfl

end Edit

theorem Plan.Settled.validate_eq_ok {g : Plan} (hg : g.Settled) : g.validate = .ok () :=
  (validate_eq_ok_iff hg.places).mpr hg.valid

structure Form where
  join : NodeId
  new : NodeId
  decision : Decision

namespace Optimize
open Edit Plan

variable {g h h' : Plan} {cfg : Config} {id : NodeId} {f : NodeId → NodeId} {r : OptimizeReport}
  {order done : List NodeId} {forms : List Form} {c : Choice}

/-! One choice. -/

theorem verify_settled (cfg : Config) (hg : g.Settled) :
    Meets (· = g) (verify cfg) (fun _ h => h = g) fun _ _ => False := by
  unfold verify
  split
  · refine Meets.ask (fun _ _ hh _ => hh) ?_
    rintro h e rfl he
    cases he.symm.trans hg.validate_eq_ok
  · exact Meets.pure fun _ hh => hh

def attempt {α : Type} (cfg : Config) (on : Bool) (question : Plan → Except Error (Option α))
    (make : α → Edit NodeId) : Edit (Option NodeId) := do
  if !on then return none
  match ← ask question with
  | none => return none
  | some a =>
    let new ← make a
    verify cfg
    return some new

theorem tryHybrid_eq (cfg : Config) (id : NodeId) : tryHybrid cfg id =
    attempt cfg cfg.hybridJoins (·.hybridCandidate id) (Specialize.hybridJoin id) := by
  unfold tryHybrid attempt
  cases cfg.hybridJoins with
  | false => rfl
  | true => exact congrArg (ask _ >>= ·) (funext fun c => by cases c <;> rfl)

theorem tryReveal_eq (cfg : Config) (id : NodeId) : tryReveal cfg id =
    attempt cfg cfg.revealJoins (·.revealCandidate id) fun choice =>
      Specialize.revealJoin id choice.1 choice.2 := by
  unfold tryReveal attempt
  cases cfg.revealJoins with
  | false => rfl
  | true => exact congrArg (ask _ >>= ·) (funext fun c => by cases c <;> rfl)

theorem hybridJoin_form {s : JoinSite} (hg : g.Settled) (hr : g.Reaches id) (hs : g.JoinsAt id s)
    (hmpc : g.requiresMpc id = .ok true) (p : Party) :
    Meets (· = g) (Specialize.hybridJoin id p) (fun new h => g.Takes id new (s.form (.hybrid p)) h)
      fun _ _ => False := by
  obtain ⟨_, join, _, hj, hkeys, _⟩ := hs.generalJoin
  obtain ⟨n, join', hat⟩ := Considered.joinAt ⟨⟨join, hj⟩, hmpc⟩ hr
  cases hat.general.symm.trans hj
  have htakes := hybridJoin_takes hg hat p
  rwa [hkeys] at htakes

theorem revealJoin_form {s : JoinSite} (hg : g.Settled) (hr : g.Reaches id) (hs : g.JoinsAt id s)
    (hmpc : g.requiresMpc id = .ok true) (side : Side) (p : Party) :
    Meets (· = g) (Specialize.revealJoin id side p)
      (fun new h => g.Takes id new (s.form (.reveal side p)) h) fun _ _ => False := by
  obtain ⟨_, join, _, hj, hkeys, hleft, hright, _⟩ := hs.generalJoin
  obtain ⟨n, join', hat⟩ := Considered.joinAt ⟨⟨join, hj⟩, hmpc⟩ hr
  cases hat.general.symm.trans hj
  have hside : g.output? (side.pick join.left join.right) = some (side.pick s.left s.right) := by
    cases side with
    | left => exact hleft
    | right => exact hright
  obtain ⟨shown, hshown, hout⟩ := Option.map_eq_some_iff.mp hside
  have htakes := revealJoin_takes hg hat side p hshown
  rwa [hkeys, hout] at htakes

/-- The answers to a question are the decisions of one kind, and what is made of an answer is the form
decided on. -/
structure Serves {α : Type} (g : Plan) (cfg : Config) (id : NodeId) (decision : α → Decision) (on : Bool)
    (question : Plan → Except Error (Option α)) (make : α → Edit NodeId) (answer : Option α) : Prop where
  asked : question g = .ok answer
  decides : ∀ a, answer = some a ∧ on = true ↔ g.Decides cfg id (decision a)
  makes : ∀ a, answer = some a → ∃ s, g.JoinsAt id s ∧ Meets (· = g) (make a)
    (fun new h => g.Takes id new (s.form (decision a)) h) fun _ _ => False

theorem hybrid_serves (cfg : Config) (hg : g.Settled) (hr : g.Reaches id) : ∃ answer,
    Serves g cfg id .hybrid cfg.hybridJoins (·.hybridCandidate id) (Specialize.hybridJoin id) answer := by
  obtain ⟨answer, hask, htrusts⟩ := hybridCandidate_decides hg.valid (hg.valid.inRange.reaches_lt hr)
  refine ⟨answer, hask, fun p => ?_, fun p hp => ?_⟩
  · rw [htrusts]
    constructor
    · rintro ⟨⟨s, hs, hmpc, ht⟩, hon⟩
      exact ⟨s, hs, hmpc, hon, ht⟩
    · rintro ⟨s, hs, hmpc, hon, ht⟩
      exact ⟨⟨s, hs, hmpc, ht⟩, hon⟩
  · obtain ⟨s, hs, hmpc, _⟩ := (htrusts p).mp hp
    exact ⟨s, hs, hybridJoin_form hg hr hs hmpc p⟩

theorem reveal_serves (cfg : Config) (hg : g.Settled) (hr : g.Reaches id)
    (hno : ∀ p, ¬ g.Decides cfg id (.hybrid p)) : ∃ answer,
    Serves g cfg id (fun a : Side × Party => .reveal a.1 a.2) cfg.revealJoins (·.revealCandidate id)
      (fun a => Specialize.revealJoin id a.1 a.2) answer := by
  obtain ⟨answer, hask, hshows⟩ := revealCandidate_decides hg.valid (hg.valid.inRange.reaches_lt hr)
  refine ⟨answer, hask, fun a => ?_, fun a ha => ?_⟩
  · rw [hshows]
    constructor
    · rintro ⟨⟨s, hs, hmpc, ht⟩, hon⟩
      exact ⟨s, hs, hmpc, fun hhybrid p htrust => hno p ⟨s, hs, hmpc, hhybrid, htrust⟩, hon, ht⟩
    · rintro ⟨s, hs, hmpc, _, hon, ht⟩
      exact ⟨⟨s, hs, hmpc, ht⟩, hon⟩
  · obtain ⟨s, hs, hmpc, _⟩ := (hshows a).mp ha
    exact ⟨s, hs, revealJoin_form hg hr hs hmpc a.1 a.2⟩

/-- What an attempt at one kind of decision has done: nothing where there is no such decision, else what
is decided. -/
def Tried {α : Type} (g : Plan) (cfg : Config) (id : NodeId) (decision : α → Decision) :
    Option NodeId → Plan → Prop
  | none, h => h = g ∧ ∀ a, ¬ g.Decides cfg id (decision a)
  | some new, h => ∃ s a, g.JoinsAt id s ∧ g.Decides cfg id (decision a) ∧
    g.Takes id new (s.form (decision a)) h

theorem Serves.attempt_tried {α : Type} {decision : α → Decision} {on : Bool}
    {question : Plan → Except Error (Option α)} {make : α → Edit NodeId} {answer : Option α}
    (hserves : Serves g cfg id decision on question make answer) :
    Meets (· = g) (attempt cfg on question make) (Tried g cfg id decision) fun _ _ => False := by
  unfold attempt
  cases on with
  | false =>
    refine Meets.pure fun h hh => ⟨hh, fun a ha => ?_⟩
    cases ((hserves.decides a).mpr ha).2
  | true =>
    refine Meets.bind (Meets.ask_known hserves.asked) fun c => Meets.of_fact fun hc => ?_
    subst hc
    cases c with
    | none =>
      refine Meets.pure fun h hh => ⟨hh, fun a ha => ?_⟩
      cases ((hserves.decides a).mpr ha).1
    | some a =>
      obtain ⟨s, hs, hmake⟩ := hserves.makes a rfl
      have hdec : g.Decides cfg id (decision a) := (hserves.decides a).mp ⟨rfl, rfl⟩
      refine Meets.bind hmake fun new => ?_
      refine Meets.bind (M := fun _ h => g.Takes id new (s.form (decision a)) h)
        (Meets.of_each fun h ht => ?_) fun _ => Meets.pure fun _ ht => ⟨s, a, hs, hdec, ht⟩
      exact (verify_settled cfg ht.settled).mono (fun _ hh => hh) (fun _ _ hh => hh.symm ▸ ht)
        fun _ _ hh => hh

theorem tryHybrid_tried (cfg : Config) (hg : g.Settled) (hr : g.Reaches id) :
    Meets (· = g) (tryHybrid cfg id) (Tried g cfg id .hybrid) fun _ _ => False := by
  obtain ⟨answer, hserves⟩ := hybrid_serves cfg hg hr
  rw [tryHybrid_eq]
  exact hserves.attempt_tried

theorem tryReveal_tried (cfg : Config) (hg : g.Settled) (hr : g.Reaches id)
    (hno : ∀ p, ¬ g.Decides cfg id (.hybrid p)) : Meets (· = g) (tryReveal cfg id)
      (Tried g cfg id fun a : Side × Party => .reveal a.1 a.2) fun _ _ => False := by
  obtain ⟨answer, hserves⟩ := reveal_serves cfg hg hr hno
  rw [tryReveal_eq]
  exact hserves.attempt_tried

theorem warnOf_meets (hid : id < g.size) :
    Meets (· = g) (warnOf id) (fun _ h => h = g) fun _ _ => False := by
  obtain ⟨b, hb⟩ := requiresMpc_eq_ok hid
  obtain ⟨n, hn⟩ := exists_fetch hid
  refine Meets.bind (Meets.ask_known hb) fun _ => Meets.of_fact fun _ => ?_
  split
  · refine Meets.bind (Meets.ask_known hn) fun _ => Meets.of_fact fun _ => ?_
    exact Meets.report fun _ hh => hh
  · exact Meets.pure fun _ hh => hh

def Made (g : Plan) (cfg : Config) (id : NodeId) (c : Choice) (h : Plan) : Prop :=
  (c = .unchanged ∧ h = g ∧ ∀ dec, ¬ g.Decides cfg id dec) ∨
  ∃ s dec new, g.JoinsAt id s ∧ g.Decides cfg id dec ∧ c = dec.choice new ∧
    g.Takes id new (s.form dec) h

/-- A choice carries out what is decided about its node. -/
theorem choose_made (cfg : Config) (hg : g.Settled) (hr : g.Reaches id) :
    Meets (· = g) (choose cfg id) (Made g cfg id) fun _ _ => False := by
  have hid := hg.valid.inRange.reaches_lt hr
  obtain ⟨n, hn⟩ := exists_fetch hid
  refine Meets.bind (Meets.ask_known hn) fun m => Meets.of_fact fun hm => ?_
  subst hm
  by_cases hkind : m.kind ≠ .join
  · rw [if_pos hkind]
    refine Meets.pure fun h hh => .inl ⟨rfl, hh, ?_⟩
    rintro dec ⟨s, ⟨n, _, _, hn', hop, _⟩, _⟩
    cases (fetch_eq_ok.mp hn).symm.trans hn'
    exact hkind (congrArg Operator.kind hop)
  rw [if_neg hkind]
  refine Meets.bind (tryHybrid_tried cfg hg hr) fun form => ?_
  cases form with
  | some new =>
    refine Meets.pure fun h hh => .inr ?_
    obtain ⟨s, p, hs, hdec, ht⟩ := hh
    exact ⟨s, .hybrid p, new, hs, hdec, rfl, ht⟩
  | none =>
    refine Meets.of_fact fun hno => ?_
    refine Meets.bind (tryReveal_tried cfg hg hr hno) fun form => ?_
    cases form with
    | some new =>
      refine Meets.pure fun h hh => .inr ?_
      obtain ⟨s, a, hs, hdec, ht⟩ := hh
      exact ⟨s, .reveal a.1 a.2, new, hs, hdec, rfl, ht⟩
    | none =>
      refine Meets.of_fact fun hno' => ?_
      refine Meets.bind (warnOf_meets hid) fun _ => Meets.pure fun h hh => .inl ⟨rfl, hh, ?_⟩
      intro dec
      cases dec with
      | hybrid p => exact hno p
      | reveal side q => exact hno' (side, q)

theorem Made.settled (hm : Made h cfg id c h') (hh : h.Settled) : h'.Settled := by
  rcases hm with ⟨_, rfl, _⟩ | ⟨_, _, _, _, _, _, ht⟩
  · exact hh
  · exact ht.settled

/-! One decision after the other. -/

/-- The pass has made up its mind about some nodes. The special forms are just the decisions of the
first plan about these nodes, in their order; each join has moved to the next free number, where it has
the form decided on, and nothing else has moved. -/
structure Decided (g : Plan) (cfg : Config) (order : List NodeId) (forms : List Form)
    (f : NodeId → NodeId) (r : OptimizeReport) (h : Plan) : Prop where
  decisions : ∀ j dec, (∃ new, ⟨j, new, dec⟩ ∈ forms) ↔ j ∈ order ∧ g.Decides cfg j dec
  ordered : (forms.map Form.join).Sublist order
  numbered : forms.map Form.new = List.range' g.size forms.length
  size : h.size = g.size + forms.length
  built : ∀ form ∈ forms, ∃ s m, g.JoinsAt form.join s ∧ h.get? form.new = some m ∧
    m.op = s.form form.decision
  mirrors : g.Mirrors f h
  moved : ∀ form ∈ forms, f form.join = form.new
  stayed : ∀ i, (∀ form ∈ forms, form.join ≠ i) → f i = i
  hybrids : r.hybridJoins = (forms.filter (·.decision.isHybrid)).map Form.new
  reveals : r.revealJoins = (forms.filter (!·.decision.isHybrid)).map Form.new

theorem Decided.start (g : Plan) (cfg : Config) : Decided g cfg [] [] (fun i => i) {} g where
  decisions j dec := by simp
  ordered := .slnil
  numbered := rfl
  size := rfl
  built := by simp
  mirrors := (Marked.refl g).mirrors
  moved := by simp
  stayed _ _ := rfl
  hybrids := rfl
  reveals := rfl

theorem Decided.join_mem (hd : Decided g cfg done forms f r h) {form : Form} (hf : form ∈ forms) :
    form.join ∈ done :=
  hd.ordered.subset (List.mem_map.mpr ⟨form, hf, rfl⟩)

theorem Decided.eq_of_not_mem (hd : Decided g cfg done forms f r h) (hid : ¬ id ∈ done) : f id = id :=
  hd.stayed id fun _ hform he => hid (he ▸ hd.join_mem hform)

/-- A join whose turn has not come is where it was. -/
theorem Decided.reaches (hd : Decided g cfg done forms f r h) (hr : g.Reaches id) (hid : ¬ id ∈ done) :
    h.Reaches id :=
  hd.eq_of_not_mem hid ▸ hd.mirrors.reaches hr

theorem Decided.size_le_new (hd : Decided g cfg done forms f r h) {form : Form} (hform : form ∈ forms) :
    g.size ≤ form.new := by
  have hnew : form.new ∈ forms.map Form.new := List.mem_map.mpr ⟨form, hform, rfl⟩
  rw [hd.numbered, List.mem_range'_1] at hnew
  exact hnew.1

theorem Decided.swap_new (hd : Decided g cfg done forms f r h) (hid : id < g.size) {form : Form}
    {new : NodeId} (hform : form ∈ forms) : Operator.swap id new form.new = form.new := by
  have hne : form.new ≠ id := Nat.ne_of_gt (Nat.lt_of_lt_of_le hid (hd.size_le_new hform))
  exact if_neg hne

/-- A form is carried along by a renaming that leaves it in its place. -/
theorem form_kept {s : JoinSite} {dec : Decision} {x : NodeId} {m : Node} {t : NodeId → NodeId}
    (hm : h.Mirrors t h') (hx : t x = x) (hget : h.get? x = some m) (hop : m.op = s.form dec) :
    ∃ m', h'.get? x = some m' ∧ m'.op = s.form dec := by
  obtain ⟨m', hm', _⟩ := hm.nodes x m hget
  rw [hx] at hm'
  refine ⟨m', hm', ?_⟩
  rw [hm.kept x m m' hget hx hm', Node.opAlong, hop, JoinSite.renameHelpers_form, ite_self]

/-- Where nothing is decided about a node, all is as it was. -/
theorem Decided.pass (hd : Decided g cfg done forms f r h) (hno : ∀ dec, ¬ g.Decides cfg id dec) :
    Decided g cfg (done ++ [id]) forms f r h :=
  { hd with
    decisions := fun j dec => by
      rw [hd.decisions, List.mem_append, List.mem_singleton]
      refine ⟨fun hj => ⟨.inl hj.1, hj.2⟩, ?_⟩
      rintro ⟨hj | rfl, hdec⟩
      · exact ⟨hj, hdec⟩
      · exact absurd hdec (hno dec)
    ordered := hd.ordered.trans (List.sublist_append_left done [id]) }

/-- A decision that is carried out is one more special form. -/
theorem Decided.take (hd : Decided g cfg done forms f r h) (hg : g.InRange) (hid : id < g.size)
    (hnew : ¬ id ∈ done) {s : JoinSite} {dec : Decision} (hs : g.JoinsAt id s)
    (hdec : g.Decides cfg id dec) (ht : h.Takes id h.size (s.form dec) h') :
    Decided g cfg (done ++ [id]) (forms ++ [⟨id, h.size, dec⟩])
      (fun i => Operator.swap id h.size (f i)) (r.add (dec.choice h.size)) h' where
  decisions j dec' := by
    simp only [List.mem_append, List.mem_singleton, Form.mk.injEq]
    constructor
    · rintro ⟨new, hmem | ⟨rfl, rfl, rfl⟩⟩
      · obtain ⟨hj, hdec'⟩ := (hd.decisions j dec').mp ⟨new, hmem⟩
        exact ⟨.inl hj, hdec'⟩
      · exact ⟨.inr rfl, hdec⟩
    · rintro ⟨hj | rfl, hdec'⟩
      · obtain ⟨new, hmem⟩ := (hd.decisions j dec').mpr ⟨hj, hdec'⟩
        exact ⟨new, .inl hmem⟩
      · exact ⟨h.size, .inr ⟨rfl, rfl, hdec'.unique hdec⟩⟩
  ordered := by
    rw [List.map_append]
    exact hd.ordered.append (List.Sublist.refl [id])
  numbered := by
    rw [List.map_append, hd.numbered, List.length_append, List.length_singleton,
      List.range'_1_concat, hd.size]
    rfl
  size := by simp [ht.size, hd.size, Nat.add_assoc]
  built form hform := by
    rcases List.mem_append.mp hform with hform | hform
    -- forms made before have numbers beyond the first plan, so this join is none of them
    · obtain ⟨s', m, hs', hm, hop⟩ := hd.built form hform
      exact ⟨s', (form_kept ht.mirrors (hd.swap_new hid hform) hm hop).imp fun _ hm' => ⟨hs', hm'⟩⟩
    · cases List.mem_singleton.mp hform
      exact ⟨s, ht.form.imp fun _ hm => ⟨hs, hm⟩⟩
  mirrors := hd.mirrors.trans ht.mirrors hg
  moved form hform := by
    rcases List.mem_append.mp hform with hform | hform
    · rw [hd.moved form hform, hd.swap_new hid hform]
    · cases List.mem_singleton.mp hform
      rw [hd.eq_of_not_mem hnew, Operator.swap, if_pos rfl]
  stayed i hi := by
    have hne : i ≠ id := fun he => hi ⟨id, h.size, dec⟩ (by simp) he.symm
    rw [hd.stayed i fun form hform => hi form (by simp [hform]), Operator.swap, if_neg hne]
  hybrids := by
    cases dec <;> simp [OptimizeReport.add, Decision.choice, Decision.isHybrid, hd.hybrids]
  reveals := by
    cases dec <;> simp [OptimizeReport.add, Decision.choice, Decision.isHybrid, hd.reveals]

theorem Decided.made (hd : Decided g cfg done forms f r h) (hv : g.Valid) (hid : id < g.size)
    (hnew : ¬ id ∈ done) (hm : Made h cfg id c h') :
    ∃ forms' f', Decided g cfg (done ++ [id]) forms' f' (r.add c) h' := by
  -- no form stands for this node yet, so it is still where the first plan has it
  have hf := hd.eq_of_not_mem hnew
  have hdecides : ∀ dec, h.Decides cfg id dec ↔ g.Decides cfg id dec := fun dec =>
    hd.mirrors.decides_iff hv hid hf
  rcases hm with ⟨rfl, rfl, hno⟩ | ⟨s, dec, new, hs, hdec, rfl, ht⟩
  · exact ⟨forms, f, hd.pass fun dec => mt (hdecides dec).mpr (hno dec)⟩
  · obtain rfl := ht.fresh
    exact ⟨_, _, hd.take hv.inRange hid hnew ((hd.mirrors.joinsAt_iff hv hid hf).mp hs)
      ((hdecides dec).mp hdec) ht⟩

theorem fresh_of_nodup {ids : List NodeId} (h : (done ++ id :: ids).Nodup) : ¬ id ∈ done :=
  fun hmem => List.disjoint_of_nodup_append h hmem List.mem_cons_self

/-- A choice takes the pass one node on. -/
theorem choose_decided (cfg : Config) (hv : g.Valid) (hr : g.Reaches id) (hnew : ¬ id ∈ done)
    (r : OptimizeReport) :
    Meets (fun h => h.Settled ∧ ∃ forms f, Decided g cfg done forms f r h) (choose cfg id)
      (fun c h => h.Settled ∧ ∃ forms f, Decided g cfg (done ++ [id]) forms f (r.add c) h)
      fun _ _ => False := by
  refine Meets.of_each fun h ⟨hs, forms, f, hd⟩ => ?_
  refine (choose_made cfg hs (hd.reaches hr hnew)).mono (fun _ hh => hh) ?_ fun _ _ hh => hh
  intro c h' hm
  exact ⟨hm.settled hs, hd.made hv (hv.inRange.reaches_lt hr) hnew hm⟩

theorem chooseAll_decided (cfg : Config) (hv : g.Valid) (ids done : List NodeId)
    (hreach : ∀ x ∈ ids, g.Reaches x) (hnodup : (done ++ ids).Nodup) (r : OptimizeReport) :
    Meets (fun h => h.Settled ∧ ∃ forms f, Decided g cfg done forms f r h) (chooseAll cfg ids r)
      (fun r' h => h.Settled ∧ ∃ forms f, Decided g cfg (done ++ ids) forms f r' h)
      fun _ _ => False := by
  induction ids generalizing done r with
  | nil =>
    rw [List.append_nil]
    exact Meets.pure fun _ hh => hh
  | cons id ids ih =>
    have hnew := fresh_of_nodup hnodup
    rw [List.append_cons] at hnodup ⊢
    refine Meets.bind (choose_decided cfg hv (hreach id (by simp)) hnew r) fun c => ?_
    exact ih (done ++ [id]) (fun x hx => hreach x (by simp [hx])) hnodup (r.add c)

theorem Decided.marked (hd : Decided g cfg order forms f r h) (hg : g.InRange) (hm : h.Marked h')
    (marked : Nat) : Decided g cfg order forms f { r with mpcMarked := marked } h' :=
  { hd with
    size := hm.size.trans hd.size
    built := fun form hform => by
      obtain ⟨s, m, hs, hget, hop⟩ := hd.built form hform
      exact ⟨s, (form_kept hm.mirrors rfl hget hop).imp fun _ hm' => ⟨hs, hm'⟩⟩
    mirrors := hd.mirrors.trans hm.mirrors hg }

/-- The choices for all nodes of the sorted plan. -/
theorem chooseAll_sorted (hg : g.Settled) {byName : Bool} (horder : g.topSort byName = .ok order) :
    Meets (· = g) (chooseAll cfg order {})
      (fun r h => h.Settled ∧ ∃ forms f, Decided g cfg order forms f r h) fun _ _ => False := by
  obtain ⟨hnodup, hmem⟩ := topSort_places horder
  have hall := chooseAll_decided cfg hg.valid order [] (fun x hx => (hmem x).mp hx) hnodup {}
  refine hall.mono ?_ (fun _ _ hh => hh) fun _ _ hh => hh
  rintro h rfl
  exact ⟨hg, [], _, Decided.start h cfg⟩

/-- The pass is its choices and then its marks. -/
theorem run_meets {I Q : OptimizeReport → Plan → Prop} (hg : g.Settled) (hcfg : cfg.check = .ok ())
    (hchoose : ∀ order, g.topSort cfg.deterministic = .ok order →
      Meets (· = g) (chooseAll cfg order {}) (fun r h => h.Settled ∧ I r h) fun _ _ => False)
    (hmark : ∀ r h order, I r h → h.topSort true = .ok order →
      Q { r with mpcMarked := order.countP h.unmarked } (h.marking order)) :
    Meets (· = g) (run cfg) Q fun _ _ => False := by
  obtain ⟨order, horder, _⟩ := hg.acyclic.topSort_eq_ok hg.valid.inRange cfg.deterministic
  refine Meets.bind (M := fun _ h => h = g) (Meets.settle (fun _ _ _ hh => hh) fun e he => ?_)
    fun _ => ?_
  · cases he.symm.trans hcfg
  refine Meets.bind (Meets.ask_known horder) fun o => Meets.of_fact fun ho => ?_
  subst ho
  refine Meets.bind (hchoose o horder) fun r => ?_
  have hmarks : Meets (fun h => h.Settled ∧ I r h) markMpc
      (fun marked h => Q { r with mpcMarked := marked } h) fun _ _ => False := by
    refine Meets.of_each fun h ⟨hs, hi⟩ => ?_
    obtain ⟨sorted, hsorted, _⟩ := hs.acyclic.topSort_eq_ok hs.valid.inRange true
    refine (markMpc_exact hs.valid.inRange hsorted).mono (fun _ hh => hh) ?_ fun _ _ hh => hh
    rintro marked h' ⟨rfl, rfl⟩
    exact hmark r h sorted hi hsorted
  refine Meets.bind hmarks fun marked => ?_
  exact Meets.bind (Meets.report fun _ hh => hh) fun _ => Meets.pure fun _ hh => hh

theorem run_decided (hg : g.Settled) (hcfg : cfg.check = .ok ()) :
    Meets (· = g) (run cfg) (fun r h => ∃ order forms f, g.topSort cfg.deterministic = .ok order ∧
      Decided g cfg order forms f r h) fun _ _ => False := by
  refine run_meets (I := fun r h => ∃ order forms f, g.topSort cfg.deterministic = .ok order ∧
    Decided g cfg order forms f r h) hg hcfg (fun order horder => ?_) ?_
  · refine (chooseAll_sorted hg horder).mono (fun _ hh => hh) ?_ fun _ _ hh => hh
    rintro r h ⟨hs, forms, f, hd⟩
    exact ⟨hs, order, forms, f, horder, hd⟩
  · rintro r h sorted ⟨order, forms, f, horder, hd⟩ _
    exact ⟨order, forms, f, horder, hd.marked hg.valid.inRange (marked_marking h sorted) _⟩

/-! What is left of the plan. -/

/-- What the pass leaves of a plan. Joins that some root leads to may have moved to nodes the report
lists, where they have a special form around the same keys; every other node is in its place. All of
them produce what they produced from the same inputs in the same order, under the new numbers. -/
structure Outcome (g : Plan) (f : NodeId → NodeId) (r : OptimizeReport) (g' : Plan) : Prop where
  reachable : Set.BijOn f {i | g.Reaches i} {i | g'.Reaches i}
  unreachable : ∀ i, ¬ g.Reaches i → f i = i
  nodes : ∀ i n, g.get? i = some n → ∃ n', g'.get? (f i) = some n' ∧ n.Mirrors f n' ∧
    (f i = i → n'.op = n.opAlong f) ∧
    (f i ≠ i → ∃ keys, n.op = .join keys ∧
      ((f i ∈ r.hybridJoins ∧ ∃ trusted, n'.op = .hybridJoin keys trusted) ∨
        (f i ∈ r.revealJoins ∧ ∃ revealed, n'.op = .revealJoin keys revealed)))
  listed : ∀ x, x ∈ r.hybridJoins ∨ x ∈ r.revealJoins → ∃ i, g.Reaches i ∧ f i = x ∧ f i ≠ i
  replaced : ∀ i, f i ≠ i → ∃ n n', g.get? i = some n ∧ g'.get? i = some n' ∧ n'.Bare ∧
    (n.isMpc = true → n'.isMpc = true)
  roots : g'.roots = g.roots

theorem Decided.exists_form (hd : Decided g cfg order forms f r h) {x : NodeId}
    (hx : x ∈ r.hybridJoins ∨ x ∈ r.revealJoins) : ∃ form ∈ forms, form.new = x := by
  rw [hd.hybrids, hd.reveals] at hx
  rcases hx with hx | hx
  · obtain ⟨form, hform, he⟩ := List.mem_map.mp hx
    exact ⟨form, List.mem_of_mem_filter hform, he⟩
  · obtain ⟨form, hform, he⟩ := List.mem_map.mp hx
    exact ⟨form, List.mem_of_mem_filter hform, he⟩

theorem Decided.moved_ne (hd : Decided g cfg order forms f r h) {form : Form} (hform : form ∈ forms) :
    f form.join ≠ form.join := by
  obtain ⟨s, _, ⟨n, _, _, hn, _⟩, _⟩ := hd.built form hform
  rw [hd.moved form hform]
  exact Nat.ne_of_gt (Nat.lt_of_lt_of_le (lt_size hn) (hd.size_le_new hform))

/-- A join that has moved has the form that was decided on, and the report lists it. -/
theorem Decided.form_of_moved (hd : Decided g cfg order forms f r h) {i : NodeId} {n n' : Node}
    (hf : f i ≠ i) (hn : g.get? i = some n) (hn' : h.get? (f i) = some n') :
    ∃ keys, n.op = .join keys ∧
      ((f i ∈ r.hybridJoins ∧ ∃ trusted, n'.op = .hybridJoin keys trusted) ∨
        (f i ∈ r.revealJoins ∧ ∃ revealed, n'.op = .revealJoin keys revealed)) := by
  obtain ⟨form, hform, rfl⟩ : ∃ form ∈ forms, form.join = i := by
    by_contra hno
    push Not at hno
    exact hf (hd.stayed i hno)
  obtain ⟨s, m, ⟨_, _, _, hjoin, hop, _⟩, hm, hmop⟩ := hd.built form hform
  rw [hd.moved form hform] at hn' ⊢
  cases hjoin.symm.trans hn
  cases hm.symm.trans hn'
  rw [hd.hybrids, hd.reveals, hmop]
  refine ⟨s.keys, hop, ?_⟩
  cases hdec : form.decision with
  | hybrid p =>
    refine .inl ⟨List.mem_map_of_mem (List.mem_filter.mpr ⟨hform, ?_⟩), p, rfl⟩
    rw [hdec]
    rfl
  | reveal side p =>
    refine .inr ⟨List.mem_map_of_mem (List.mem_filter.mpr ⟨hform, ?_⟩), _, rfl⟩
    rw [hdec]
    rfl

theorem Decided.outcome (hd : Decided g cfg order forms f r h) (hg : g.InRange) : Outcome g f r h where
  reachable := hd.mirrors.bijOn hg
  unreachable i hi := by
    by_contra hf
    exact hi (hd.mirrors.moved i hf).1
  nodes i n hn := by
    obtain ⟨n', hn', hmirror⟩ := hd.mirrors.nodes i n hn
    exact ⟨n', hn', hmirror, fun hf => hd.mirrors.kept i n n' hn hf (hf ▸ hn'), fun hf =>
      hd.form_of_moved hf hn hn'⟩
  listed x hx := by
    obtain ⟨form, hform, rfl⟩ := hd.exists_form hx
    have hne := hd.moved_ne hform
    exact ⟨form.join, (hd.mirrors.moved _ hne).1, hd.moved form hform, hne⟩
  replaced i hi := (hd.mirrors.moved i hi).2.2.2
  roots := hd.mirrors.roots

/-! Checks that always pass may as well be left out. -/

theorem verify_agree (cfg : Config) (b : Bool) :
    Agree Settled (verify cfg) (verify { cfg with verifyChanges := b }) := by
  have hnone : ∀ cfg d, d.plan.Settled → (verify cfg).apply d = (.ok (), d) := by
    intro cfg d hd
    unfold verify
    split
    · rw [apply_ask, hd.validate_eq_ok]
    · rfl
  intro d hd
  rw [hnone _ d hd, hnone _ d hd]

theorem Serves.attempt_agree {α : Type} {decision : α → Decision} {on : Bool}
    {question : Plan → Except Error (Option α)} {make : α → Edit NodeId} {answer : Option α}
    (hserves : Serves g cfg id decision on question make answer) (b : Bool) :
    Agree (· = g) (attempt cfg on question make)
      (attempt { cfg with verifyChanges := b } on question make) := by
  unfold attempt
  split
  · exact Agree.refl _
  refine (Agree.refl _).bind (R := fun _ _ => False) (Meets.ask_known hserves.asked) fun c d hd => ?_
  obtain ⟨hplan, rfl⟩ := hd
  cases c with
  | none => rfl
  | some a =>
    obtain ⟨s, _, hmake⟩ := hserves.makes a rfl
    refine ((Agree.refl _).bind hmake fun new => ?_) d hplan
    have hverify : Agree (g.Takes id new (s.form (decision a))) (verify cfg)
        (verify { cfg with verifyChanges := b }) :=
      fun d ht => verify_agree cfg b d ht.settled
    exact hverify.bind (M := fun _ _ => True) (R := fun _ _ => True) (fun d _ => by split <;> trivial)
      fun _ => Agree.refl _

theorem choose_agree (cfg : Config) (b : Bool) (hg : g.Settled) (hr : g.Reaches id) :
    Agree (· = g) (choose cfg id) (choose { cfg with verifyChanges := b } id) := by
  obtain ⟨n, hn⟩ := exists_fetch (hg.valid.inRange.reaches_lt hr)
  refine (Agree.refl _).bind (R := fun _ _ => False) (Meets.ask_known hn) fun m => ?_
  split
  · exact Agree.refl _
  have hhybrid : Agree (· = g) (tryHybrid cfg id) (tryHybrid { cfg with verifyChanges := b } id) := by
    obtain ⟨answer, hserves⟩ := hybrid_serves cfg hg hr
    rw [tryHybrid_eq, tryHybrid_eq]
    exact hserves.attempt_agree b
  intro d hd
  refine (hhybrid.bind (tryHybrid_tried cfg hg hr) fun form => ?_) d hd.1
  cases form with
  | some new => exact Agree.refl _
  | none =>
    rintro d ⟨hplan, hno⟩
    have hreveal : Agree (· = g) (tryReveal cfg id) (tryReveal { cfg with verifyChanges := b } id) := by
      obtain ⟨answer, hserves⟩ := reveal_serves cfg hg hr hno
      rw [tryReveal_eq, tryReveal_eq]
      exact hserves.attempt_agree b
    refine (hreveal.bind (tryReveal_tried cfg hg hr hno) fun form => ?_) d hplan
    cases form with
    | some new => exact Agree.refl _
    | none => exact Agree.refl _

theorem chooseAll_agree (cfg : Config) (b : Bool) (hv : g.Valid) (ids done : List NodeId)
    (hreach : ∀ x ∈ ids, g.Reaches x) (hnodup : (done ++ ids).Nodup) (r : OptimizeReport) :
    Agree (fun h => h.Settled ∧ ∃ forms f, Decided g cfg done forms f r h) (chooseAll cfg ids r)
      (chooseAll { cfg with verifyChanges := b } ids r) := by
  induction ids generalizing done r with
  | nil => exact Agree.refl _
  | cons id ids ih =>
    have hr := hreach id (by simp)
    have hnew := fresh_of_nodup hnodup
    rw [List.append_cons] at hnodup
    have hfirst : Agree (fun h => h.Settled ∧ ∃ forms f, Decided g cfg done forms f r h) (choose cfg id)
        (choose { cfg with verifyChanges := b } id) := by
      rintro d ⟨hs, forms, f, hd⟩
      exact choose_agree cfg b hs (hd.reaches hr hnew) d rfl
    refine hfirst.bind (choose_decided cfg hv hr hnew r) fun c => ?_
    exact ih (done ++ [id]) (fun x hx => hreach x (by simp [hx])) hnodup (r.add c)

theorem run_agree (cfg : Config) (b : Bool) (hg : g.Settled) :
    Agree (· = g) (run cfg) (run { cfg with verifyChanges := b }) := by
  obtain ⟨order, horder, _⟩ := hg.acyclic.topSort_eq_ok hg.valid.inRange cfg.deterministic
  obtain ⟨hnodup, hmem⟩ := topSort_places horder
  refine (Agree.refl _).bind (M := fun _ h => h = g) (R := fun _ h => h = g)
    (Meets.settle (fun _ _ _ hh => hh) fun _ _ _ hh => hh) fun _ => ?_
  refine (Agree.refl _).bind (R := fun _ _ => False) (Meets.ask_known horder) fun o d hd => ?_
  obtain ⟨hplan, rfl⟩ := hd
  have hchoices : Agree (· = g) (chooseAll cfg o {}) (chooseAll { cfg with verifyChanges := b } o {}) := by
    rintro d rfl
    exact chooseAll_agree cfg b hg.valid o [] (fun x hx => (hmem x).mp hx) hnodup {} d
      ⟨hg, [], _, Decided.start d.plan cfg⟩
  exact hchoices.bind (chooseAll_sorted hg horder) (fun _ => Agree.refl _) d hplan

end Optimize

/-- A plan as the pass expects it: nodes know their numbers, it passes validation, looking up columns
again would change no node, and there is no cycle below a root. The relations need not be well
formed. -/
structure Plan.Ready (g : Plan) : Prop where
  places : ∀ i n, g.get? i = some n → n.id = i
  validates : g.validate = .ok ()
  upToDate : ∀ id < g.size, (Edit.refreshColumns id).apply ⟨g, []⟩ = (.ok (), ⟨g, []⟩)
  acyclic : g.Acyclic

theorem Plan.Ready.settled {g : Plan} (h : g.Ready) : g.Settled where
  places := h.places
  valid := (validate_eq_ok_iff h.places).mp h.validates
  current i _ hn := Edit.refresh_of_idle (d := ⟨g, []⟩) hn (h.upToDate i (lt_size hn))
  acyclic := h.acyclic

/-- Being ready can be checked node by node where every edge leads to a later node. -/
theorem Plan.ready_of_check {g : Plan} {k : Nat} (hsize : g.size = k)
    (hplaces : ∀ i < k, (g.get? i).map Node.id = some i) (hv : g.validate = .ok ())
    (hcur : ∀ id < k, (Edit.refreshColumns id).apply ⟨g, []⟩ = (.ok (), ⟨g, []⟩))
    (hedges : ∀ p < k, ∀ c ∈ (g.childrenOf p).toList, p < c) : g.Ready where
  places i n hn := by
    have hid := hplaces i (hsize ▸ lt_size hn)
    rw [hn] at hid
    exact Option.some.inj hid
  validates := hv
  upToDate := hsize ▸ hcur
  acyclic := acyclic_of_lt fun p c hpc => hedges p (hsize ▸ hpc.lt_size) c hpc

/-- On a plan that is ready the pass succeeds for every valid setting, and what it leaves is the plan
with joins renamed. Checking the plan on the way makes no difference. With settings that are not valid
it is refused and has done nothing. -/
theorem optimize_preserves_plan (d : Draft) (cfg : Config) (h : d.plan.Ready) :
    (cfg.check = .ok () → ∃ f r d', (Optimize.run cfg).apply d = (.ok r, d') ∧
      Optimize.Outcome d.plan f r d'.plan ∧
      ∀ b, (Optimize.run { cfg with verifyChanges := b }).apply d = (.ok r, d')) ∧
    ∀ e, cfg.check = .error e → (Optimize.run cfg).apply d = (.error e, d) := by
  have hg := h.settled
  refine ⟨fun hcfg => ?_, fun e he => ?_⟩
  · obtain ⟨r, d', hrun, order, forms, f, _, hd⟩ := (Optimize.run_decided hg hcfg).succeeds rfl
    refine ⟨f, r, d', hrun, hd.outcome hg.valid.inRange, fun b => ?_⟩
    rw [← Optimize.run_agree cfg b hg d rfl, hrun]
  · rw [Optimize.run, Edit.apply_bind, Edit.apply_settle, he]

def sharedJoin : List Call :=
  [.build (.create "l" [⟨"k", .integer, .singleton 1⟩] (.singleton 1)),
    .build (.create "r" [⟨"k", .integer, .singleton 1⟩] (.singleton 2)),
    .build (.join 0 1 "j" ["k"] ["k"]), .build (.join 2 2 "s" ["k"] ["k"])]

theorem sharedJoin_ready : (Call.afterAll sharedJoin ⟨∅, []⟩).plan.Ready :=
  Plan.ready_of_check (k := 4) (by decide) (by decide) (by decide) (by decide +kernel) (by decide)

theorem sharedJoin_preserved :
    let d := Call.afterAll sharedJoin ⟨∅, []⟩
    let r : OptimizeReport := { hybridJoins := [4], mpcMarked := 1 }
    d.plan.Ready ∧ Config.check {} = .ok () ∧
      ∃ f d', (Optimize.run {}).apply d = (.ok r, d') ∧ Optimize.Outcome d.plan f r d'.plan ∧
        ∀ b, (Optimize.run { verifyChanges := b }).apply d = (.ok r, d') := by
  have hcfg : Config.check {} = .ok () := by decide
  obtain ⟨f, r, d', hrun, hout, hverify⟩ :=
    (optimize_preserves_plan (Call.afterAll sharedJoin ⟨∅, []⟩) {} sharedJoin_ready).1 hcfg
  have hreport : ((Optimize.run {}).apply (Call.afterAll sharedJoin ⟨∅, []⟩)).1 =
      .ok { hybridJoins := [4], mpcMarked := 1 } := by decide +kernel
  rw [hrun] at hreport
  cases hreport
  exact ⟨sharedJoin_ready, hcfg, f, d', hrun, hout, hverify⟩

/-- On a plan that is ready, whatever the settings say about order and checks, the pass carries out just
what the plan it is given decides about its reachable joins, and reports it in the order of the sorted
plan. -/
theorem optimize_decides_on_input (d : Draft) (cfg : Config) (h : d.plan.Ready)
    (hcfg : cfg.check = .ok ()) :
    ∃ order forms f r d', d.plan.topSort cfg.deterministic = .ok order ∧ order.Nodup ∧
      (∀ j, j ∈ order ↔ d.plan.Reaches j) ∧ (Optimize.run cfg).apply d = (.ok r, d') ∧
      Optimize.Decided d.plan cfg order forms f r d'.plan := by
  obtain ⟨r, d', hrun, order, forms, f, horder, hd⟩ :=
    (Optimize.run_decided h.settled hcfg).succeeds rfl
  obtain ⟨hnodup, hmem⟩ := Plan.topSort_places horder
  exact ⟨order, forms, f, r, d', horder, hnodup, hmem, hrun, hd⟩

/-- A trusted party can match the keys of the first join. Its result is joined with data of the one
party that gets to see the outcome. -/
def mixedJoins : List Call :=
  [.build (.create "l" [⟨"k", .integer, .singleton 1⟩] (.singleton 1)),
    .build (.create "r" [⟨"k", .integer, .singleton 1⟩] (.singleton 2)),
    .build (.join 0 1 "j" ["k"] ["k"]), .build (.create "t" [⟨"k", .integer, ∅⟩] (.singleton 2)),
    .build (.join 3 2 "s" ["k"] ["k"]), .setHolders 4 (.singleton 2)]

theorem mixedJoins_ready : (Call.afterAll mixedJoins ⟨∅, []⟩).plan.Ready :=
  Plan.ready_of_check (k := 5) (by decide) (by decide) (by decide) (by decide +kernel) (by decide)

theorem mixedJoins_decided :
    let d := Call.afterAll mixedJoins ⟨∅, []⟩
    let r : OptimizeReport := { hybridJoins := [5], revealJoins := [6] }
    d.plan.Ready ∧ Config.check {} = .ok () ∧
      ∃ order forms f d', d.plan.topSort true = .ok order ∧ order.Nodup ∧
        (∀ j, j ∈ order ↔ d.plan.Reaches j) ∧ (Optimize.run {}).apply d = (.ok r, d') ∧
        Optimize.Decided d.plan {} order forms f r d'.plan := by
  have hcfg : Config.check {} = .ok () := by decide
  obtain ⟨order, forms, f, r, d', horder, hnodup, hmem, hrun, hd⟩ :=
    optimize_decides_on_input (Call.afterAll mixedJoins ⟨∅, []⟩) {} mixedJoins_ready hcfg
  have hreport : ((Optimize.run {}).apply (Call.afterAll mixedJoins ⟨∅, []⟩)).1 =
      .ok { hybridJoins := [5], revealJoins := [6] } := by decide +kernel
  rw [hrun] at hreport
  cases hreport
  exact ⟨mixedJoins_ready, hcfg, order, forms, f, d', horder, hnodup, hmem, hrun, hd⟩

end PartyPlan
