import Mathlib.Order.Bounds.Basic
import PartyPlan.Proofs.Substitution

/-! What a plan decides about its joins: which take a special form under given settings, and which form.
The questions of the optimizing pass are answered by that, and a node that keeps its number when others
are renamed keeps what is decided about it. -/
namespace PartyPlan

/-- What is done about a join: a trusted party matches its keys, or one input is shown to a party. -/
inductive Decision where
  | hybrid (trusted : Party)
  | reveal (side : Side) (recipient : Party)
deriving DecidableEq

def Decision.isHybrid : Decision → Bool
  | hybrid _ => true
  | reveal _ _ => false

def Decision.choice (new : NodeId) : Decision → Choice
  | hybrid _ => .hybrid new
  | reveal _ _ => .reveal new

structure JoinSite where
  keys : JoinKeys
  left : Relation
  right : Relation
  output : Relation

namespace JoinSite

def columns (s : JoinSite) : List Column := s.keys.left ++ s.keys.right

/-- There are keys, and this is the least party trusted with all of them. -/
def Trusts (s : JoinSite) (p : Party) : Prop :=
  s.columns ≠ [] ∧ IsLeast {q | ∀ c ∈ s.columns, q ∈ c.colluders} p

/-- One party alone gets the output and holds one input alone, so that it can be shown the other: the
right input where it holds the left one, and else the left input. -/
def Shows (s : JoinSite) (side : Side) (r : Party) : Prop :=
  s.output.holders = .singleton r ∧
    match side with
    | .right => s.left.holders = .singleton r
    | .left => s.left.holders ≠ .singleton r ∧ s.right.holders = .singleton r

/-- What the settings make of a join: a hybrid form if there can be one, else a revealing form. -/
def Decides (s : JoinSite) (cfg : Config) : Decision → Prop
  | .hybrid p => cfg.hybridJoins = true ∧ s.Trusts p
  | .reveal side r =>
    (cfg.hybridJoins = true → ∀ p, ¬ s.Trusts p) ∧ cfg.revealJoins = true ∧ s.Shows side r

def form (s : JoinSite) : Decision → Operator
  | .hybrid p => .hybridJoin s.keys p
  | .reveal side r =>
    .revealJoin s.keys ⟨side, side.pick s.left s.right, r⟩

end JoinSite

namespace Plan

def JoinsAt (g : Plan) (id : NodeId) (s : JoinSite) : Prop :=
  ∃ n l r, g.get? id = some n ∧ n.op = .join s.keys ∧ n.inputs = .binary (some l) (some r) ∧
    g.output? l = some s.left ∧ g.output? r = some s.right ∧ n.output = s.output

/-- What is decided about a node: nothing, unless it is a general join with both inputs that needs a
secure protocol. -/
def Decides (g : Plan) (cfg : Config) (id : NodeId) (dec : Decision) : Prop :=
  ∃ s, g.JoinsAt id s ∧ g.requiresMpc id = .ok true ∧ s.Decides cfg dec

end Plan

/-! A site has one decision at most. -/

theorem IdSet.min?_eq_some {s : IdSet} {a : Nat} : s.min? = some a ↔ IsLeast {b | b ∈ s} a := by
  obtain ⟨l, hl⟩ := s
  cases l with
  | nil => simp [min?, IsLeast, mem_def]
  | cons b bs =>
    have hfirst : IsLeast {c | c ∈ (⟨b :: bs, hl⟩ : IdSet)} b := by
      refine ⟨List.mem_cons_self, fun c hc => ?_⟩
      rcases List.mem_cons.mp hc with rfl | hc
      · exact Nat.le_refl _
      · exact Nat.le_of_lt ((List.pairwise_cons.mp hl).1 c hc)
    rw [min?, List.head?_cons, Option.some.injEq]
    exact ⟨fun h => h ▸ hfirst, fun h => hfirst.unique h⟩

theorem IdSet.toList_eq_singleton {s : IdSet} {a : Nat} : s.toList = [a] ↔ s = .singleton a := by
  constructor
  · intro h
    ext b
    rw [IdSet.mem_def, h, IdSet.mem_singleton, List.mem_singleton]
  · rintro rfl
    rfl

theorem IdSet.singleton_inj {a b : Nat} : IdSet.singleton a = .singleton b ↔ a = b := by
  simp [singleton]

theorem Plan.mem_trustedWith {cs : List Column} {q : Party} (h : cs ≠ []) :
    q ∈ trustedWith cs ↔ ∀ c ∈ cs, q ∈ c.colluders := by
  induction cs using trustedWith.induct with
  | case1 => exact absurd rfl h
  | case2 c => simp [trustedWith]
  | case3 c cs hcs ih =>
    have hne : cs ≠ [] := hcs
    simp [trustedWith, ih hne]

namespace JoinSite

variable {s : JoinSite} {cfg : Config} {p r : Party} {side : Side} {dec dec' : Decision}

theorem min?_trustedWith : (Plan.trustedWith s.columns).min? = some p ↔ s.Trusts p := by
  by_cases h : s.columns = []
  · simp [h, Trusts, Plan.trustedWith, IdSet.min?]
  · simp [IdSet.min?_eq_some, Trusts, h, Plan.mem_trustedWith h]

def shown? (s : JoinSite) : Option (Side × Party) :=
  match s.output.holders.toList with
  | [r] =>
    if s.left.holders = s.output.holders then some (.right, r)
    else if s.right.holders = s.output.holders then some (.left, r)
    else none
  | _ => none

theorem shown?_eq_some : s.shown? = some (side, r) ↔ s.Shows side r := by
  unfold shown?
  split
  · next q hq =>
    rw [IdSet.toList_eq_singleton] at hq
    by_cases hqr : q = r
    · subst hqr
      by_cases hl : s.left.holders = .singleton q <;> by_cases hr : s.right.holders = .singleton q <;>
        cases side <;> simp [Shows, hq, hl, hr]
    · have hother : ¬ s.Shows side r := fun h => hqr (IdSet.singleton_inj.mp (hq.symm.trans h.1))
      split_ifs <;> simp [hother, hqr]
  · next hno =>
    simp only [reduceCtorEq, false_iff]
    rintro ⟨hout, _⟩
    exact hno r (IdSet.toList_eq_singleton.mpr hout)

theorem Decides.unique (h : s.Decides cfg dec) (h' : s.Decides cfg dec') : dec = dec' := by
  cases dec with
  | hybrid p =>
    cases dec' with
    | hybrid p' => exact congrArg _ (h.2.2.unique h'.2.2)
    | reveal side' r' => exact absurd h.2 (h'.1 h.1 p)
  | reveal side r =>
    cases dec' with
    | hybrid p' => exact absurd h'.2 (h.1 h'.1 p')
    | reveal side' r' =>
      have hsame := (shown?_eq_some.mpr h.2.2).symm.trans (shown?_eq_some.mpr h'.2.2)
      cases hsame
      rfl

theorem renameHelpers_form (f : NodeId → NodeId) : (s.form dec).renameHelpers f = s.form dec := by
  cases dec <;> rfl

end JoinSite

theorem Inputs.rename_eq_binary {f : NodeId → NodeId} {inputs : Inputs} {l' r' : NodeId} :
    inputs.rename f = .binary (some l') (some r') ↔
      ∃ l r, inputs = .binary (some l) (some r) ∧ f l = l' ∧ f r = r' := by
  cases inputs with
  | unary input => simp [rename]
  | nary ordered => simp [rename]
  | binary left right =>
    cases left <;> cases right <;> simp [rename]

namespace Plan

variable {g h : Plan} {id : NodeId} {n : Node} {s s' : JoinSite} {f : NodeId → NodeId} {cfg : Config}
  {dec dec' : Decision}

theorem JoinsAt.unique (hs : g.JoinsAt id s) (hs' : g.JoinsAt id s') : s = s' := by
  obtain ⟨n, l, r, hn, hop, hin, hl, hr, hout⟩ := hs
  obtain ⟨n', l', r', hn', hop', hin', hl', hr', hout'⟩ := hs'
  cases hn.symm.trans hn'
  cases hin.symm.trans hin'
  obtain ⟨keys, left, right, output⟩ := s
  cases s'
  cases hop.symm.trans hop'
  cases hl.symm.trans hl'
  cases hr.symm.trans hr'
  cases hout.symm.trans hout'
  rfl

theorem Decides.unique (hd : g.Decides cfg id dec) (hd' : g.Decides cfg id dec') : dec = dec' := by
  obtain ⟨s, hs, _, hdec⟩ := hd
  obtain ⟨s', hs', _, hdec'⟩ := hd'
  cases hs.unique hs'
  exact hdec.unique hdec'

/-! The questions of the pass are answered by what is decided. -/

theorem shared_of_requiresMpc (hn : g.get? id = some n) (h : g.requiresMpc id = .ok true) :
    n.isLocal = false := by
  by_contra hl
  rw [Bool.not_eq_false] at hl
  simp [requiresMpc, fetch_eq_ok.mpr hn, bind, Except.bind, hl, pure, Except.pure] at h

def Considered (g : Plan) (id : NodeId) : Prop :=
  (∃ join, g.generalJoin id = .ok join) ∧ g.requiresMpc id = .ok true

theorem Considered.joinAt (hc : g.Considered id) (hr : g.Reaches id) :
    ∃ n join, g.JoinAt id n join := by
  obtain ⟨⟨join, hjoin⟩, hmpc⟩ := hc
  obtain ⟨n, hn, hop, hin⟩ := generalJoin_eq_ok hjoin
  exact ⟨n, join, hjoin, hn, hop, hin, hr, shared_of_requiresMpc hn hmpc⟩

/-- The question for a hybrid form has an answer for every node. -/
theorem hybridCandidate_eq_ok (hid : id < g.size) :
    ∃ candidate, g.hybridCandidate id = .ok candidate ∧
      ∀ party, candidate = some party → g.Considered id := by
  obtain ⟨b, hb⟩ := requiresMpc_eq_ok hid
  unfold hybridCandidate
  cases hj : g.generalJoin id with
  | error e => exact ⟨none, rfl, fun _ h => nomatch h⟩
  | ok join =>
    cases b with
    | false => exact ⟨none, by simp [hb, bind, Except.bind, pure, Except.pure], fun _ h => nomatch h⟩
    | true =>
      exact ⟨_, by simp [hb, bind, Except.bind, pure, Except.pure]; rfl, fun _ _ => ⟨⟨join, hj⟩, hb⟩⟩

/-- The question for a revealing form has an answer for every node whose inputs are there. -/
theorem revealCandidate_eq_ok
    (hin : ∀ join, g.generalJoin id = .ok join → join.left < g.size ∧ join.right < g.size)
    (hid : id < g.size) :
    ∃ candidate, g.revealCandidate id = .ok candidate ∧
      ∀ choice, candidate = some choice → g.Considered id := by
  obtain ⟨b, hb⟩ := requiresMpc_eq_ok hid
  obtain ⟨n, hn⟩ := exists_fetch hid
  unfold revealCandidate
  cases hj : g.generalJoin id with
  | error e => exact ⟨none, rfl, fun _ h => nomatch h⟩
  | ok join =>
    cases b with
    | false => exact ⟨none, by simp [hb, bind, Except.bind, pure, Except.pure], fun _ h => nomatch h⟩
    | true =>
      obtain ⟨l, hl⟩ := exists_fetch (hin join hj).1
      obtain ⟨r, hr⟩ := exists_fetch (hin join hj).2
      have hok : ∀ x : Except Error (Option (Side × Party)), (∃ c, x = .ok c) →
          ∃ c, x = .ok c ∧ ∀ choice, c = some choice → g.Considered id := by
        rintro x ⟨c, hc⟩
        exact ⟨c, hc, fun _ _ => ⟨⟨join, hj⟩, hb⟩⟩
      apply hok
      simp only [hb, hn, bind, Except.bind]
      rw [if_neg (by decide)]
      split
      · simp only [hl, hr]
        split
        · exact ⟨_, rfl⟩
        · split <;> exact ⟨_, rfl⟩
      · exact ⟨_, rfl⟩

theorem JoinsAt.generalJoin (hs : g.JoinsAt id s) : ∃ n join, g.get? id = some n ∧
    g.generalJoin id = .ok join ∧ join.keys = s.keys ∧ g.output? join.left = some s.left ∧
    g.output? join.right = some s.right ∧ n.output = s.output := by
  obtain ⟨n, l, r, hn, hop, hin, hl, hr, hout⟩ := hs
  exact ⟨n, ⟨s.keys, l, r⟩, hn, generalJoin_of_node hn hop hin, rfl, hl, hr, hout⟩

theorem exists_joinsAt (hv : g.Valid) {join : GeneralJoin} (hj : g.generalJoin id = .ok join) :
    ∃ s, g.JoinsAt id s := by
  obtain ⟨n, hn, hop, hin⟩ := generalJoin_eq_ok hj
  obtain ⟨hl, hr⟩ := Specialize.join_inputs_lt hv hj
  obtain ⟨left, hleft⟩ := lt_size_iff.mp hl
  obtain ⟨right, hright⟩ := lt_size_iff.mp hr
  exact ⟨⟨join.keys, left.output, right.output, n.output⟩, n, join.left, join.right, hn, hop, hin,
    by simp [output?, hleft], by simp [output?, hright], rfl⟩

theorem Considered.exists_site (hv : g.Valid) (hc : g.Considered id) :
    ∃ s, g.JoinsAt id s ∧ g.requiresMpc id = .ok true := by
  obtain ⟨⟨join, hj⟩, hmpc⟩ := hc
  obtain ⟨s, hs⟩ := exists_joinsAt hv hj
  exact ⟨s, hs, hmpc⟩

theorem hybridCandidate_of_joinsAt (hs : g.JoinsAt id s) (hmpc : g.requiresMpc id = .ok true) :
    g.hybridCandidate id = .ok (trustedWith s.columns).min? := by
  obtain ⟨n, join, _, hj, hkeys, _⟩ := hs.generalJoin
  simp [hybridCandidate, hj, hmpc, bind, Except.bind, pure, Except.pure, hkeys, JoinSite.columns]

theorem revealCandidate_of_joinsAt (hs : g.JoinsAt id s) (hmpc : g.requiresMpc id = .ok true) :
    g.revealCandidate id = .ok s.shown? := by
  obtain ⟨n, join, hn, hj, _, hl, hr, hout⟩ := hs.generalJoin
  obtain ⟨left, hleft, hlout⟩ := Option.map_eq_some_iff.mp hl
  obtain ⟨right, hright, hrout⟩ := Option.map_eq_some_iff.mp hr
  simp only [revealCandidate, hj, hmpc, bind, Except.bind, fetch_eq_ok.mpr hn, fetch_eq_ok.mpr hleft,
    fetch_eq_ok.mpr hright, hlout, hrout, hout, JoinSite.shown?]
  rw [if_neg (by decide)]
  cases s.output.holders.toList with
  | nil => rfl
  | cons r rest =>
    cases rest with
    | nil => split_ifs <;> rfl
    | cons => rfl

/-- A question that is answered at a join, and elsewhere has no for an answer. -/
theorem exists_answer {α : Type} {question : Except Error (Option α)} {D : JoinSite → α → Prop}
    (hv : g.Valid)
    (hsite : ∀ s, g.JoinsAt id s → g.requiresMpc id = .ok true →
      ∃ answer, question = .ok answer ∧ ∀ a, answer = some a ↔ D s a)
    (hask : ∃ answer, question = .ok answer ∧ ∀ a, answer = some a → g.Considered id) :
    ∃ answer, question = .ok answer ∧ ∀ a, answer = some a ↔
      ∃ s, g.JoinsAt id s ∧ g.requiresMpc id = .ok true ∧ D s a := by
  by_cases hjoin : ∃ s, g.JoinsAt id s ∧ g.requiresMpc id = .ok true
  · obtain ⟨s, hs, hmpc⟩ := hjoin
    obtain ⟨answer, hanswer, hiff⟩ := hsite s hs hmpc
    refine ⟨answer, hanswer, fun a => (hiff a).trans ⟨fun h => ⟨s, hs, hmpc, h⟩, ?_⟩⟩
    rintro ⟨s', hs', _, h⟩
    exact hs.unique hs' ▸ h
  · obtain ⟨answer, hanswer, hconsidered⟩ := hask
    refine ⟨answer, hanswer, fun a => iff_of_false (fun h => ?_) ?_⟩
    · exact hjoin ((hconsidered a h).exists_site hv)
    · rintro ⟨s, hs, hmpc, _⟩
      exact hjoin ⟨s, hs, hmpc⟩

theorem hybridCandidate_decides (hv : g.Valid) (hid : id < g.size) :
    ∃ answer, g.hybridCandidate id = .ok answer ∧ ∀ p, answer = some p ↔
      ∃ s, g.JoinsAt id s ∧ g.requiresMpc id = .ok true ∧ s.Trusts p := by
  refine exists_answer hv (fun s hs hmpc => ?_) (hybridCandidate_eq_ok hid)
  exact ⟨_, hybridCandidate_of_joinsAt hs hmpc, fun p => JoinSite.min?_trustedWith⟩

theorem revealCandidate_decides (hv : g.Valid) (hid : id < g.size) :
    ∃ answer, g.revealCandidate id = .ok answer ∧ ∀ choice, answer = some choice ↔
      ∃ s, g.JoinsAt id s ∧ g.requiresMpc id = .ok true ∧ s.Shows choice.1 choice.2 := by
  refine exists_answer hv (fun s hs hmpc => ?_)
    (revealCandidate_eq_ok (fun _ => Specialize.join_inputs_lt hv) hid)
  exact ⟨_, revealCandidate_of_joinsAt hs hmpc, fun choice => JoinSite.shown?_eq_some⟩

/-! A renaming leaves the decisions about nodes that stay. -/

theorem Mirrors.output?_parent (hm : g.Mirrors f h) (hv : g.Valid) {n : Node} {p : NodeId}
    (hn : g.get? id = some n) (hp : p ∈ n.parents) : h.output? (f p) = g.output? p :=
  hm.output? (hv.edges.parent_lt (mem_parentsOf.mpr ⟨n, hn, hp⟩))

theorem Mirrors.joinsAt_iff (hm : g.Mirrors f h) (hv : g.Valid) (hid : id < g.size) (hf : f id = id) :
    h.JoinsAt id s ↔ g.JoinsAt id s := by
  obtain ⟨n, hn⟩ := lt_size_iff.mp hid
  obtain ⟨n', hn', hmirror⟩ := hm.nodes id n hn
  rw [hf] at hn'
  have hop := hm.kept id n n' hn hf hn'
  have hreads : ∀ p ∈ n.inputs.ids, h.output? (f p) = g.output? p := fun p hp =>
    hm.output?_parent hv hn ((hv.nodes id n hn).named p hp)
  constructor
  · rintro ⟨m, l', r', hget, hjoin, hin, hl, hr, hout⟩
    cases hn'.symm.trans hget
    rw [hmirror.inputs, Inputs.rename_eq_binary] at hin
    obtain ⟨l, r, hin, rfl, rfl⟩ := hin
    rw [hreads l (by simp [hin, Inputs.ids])] at hl
    rw [hreads r (by simp [hin, Inputs.ids])] at hr
    exact ⟨n, l, r, hn, Node.opAlong_eq_join (hop.symm.trans hjoin), hin, hl, hr,
      hmirror.output.symm.trans hout⟩
  · rintro ⟨m, l, r, hget, hjoin, hin, hl, hr, hout⟩
    cases hn.symm.trans hget
    have hinputs : n'.inputs = .binary (some (f l)) (some (f r)) := by
      rw [hmirror.inputs, Inputs.rename_eq_binary]
      exact ⟨l, r, hin, rfl, rfl⟩
    refine ⟨n', f l, f r, hn', ?_, hinputs, ?_, ?_, hmirror.output.trans hout⟩
    · simp [hop, Node.opAlong, hjoin, Operator.renameHelpers]
    · rw [hreads l (by simp [hin, Inputs.ids]), hl]
    · rw [hreads r (by simp [hin, Inputs.ids]), hr]

/-- Whether a join needs a secure protocol hangs on who holds its inputs, not on their numbers. -/
theorem Mirrors.requiresMpc_join (hm : g.Mirrors f h) (hv : g.Valid) (hf : f id = id)
    (hs : g.JoinsAt id s) : h.requiresMpc id = g.requiresMpc id := by
  obtain ⟨n, l, r, hn, hop, _⟩ := hs
  obtain ⟨n', hn', hmirror⟩ := hm.nodes id n hn
  rw [hf] at hn'
  have hop' : n'.op = .join s.keys := by
    rw [hm.kept id n n' hn hf hn']
    simp [Node.opAlong, hop, Operator.renameHelpers]
  have hholders : Relation.holdersOf (n'.parents.toList.filterMap h.output?) =
      Relation.holdersOf (n.parents.toList.filterMap g.output?) := by
    ext a
    simp only [Relation.mem_holdersOf, List.mem_filterMap, ← IdSet.mem_def, hmirror.parents]
    constructor
    · rintro ⟨rel, ⟨_, ⟨q, hq, rfl⟩, hrel⟩, ha⟩
      exact ⟨rel, ⟨q, hq, (hm.output?_parent hv hn hq).symm.trans hrel⟩, ha⟩
    · rintro ⟨rel, ⟨q, hq, hrel⟩, ha⟩
      exact ⟨rel, ⟨f q, ⟨q, hq, rfl⟩, (hm.output?_parent hv hn hq).trans hrel⟩, ha⟩
  simp only [requiresMpc, fetch_eq_ok.mpr hn, fetch_eq_ok.mpr hn', bind, Except.bind, Node.kind, hop,
    hop', hmirror.isLocal, hholders]
  rfl

theorem Mirrors.decides_iff (hm : g.Mirrors f h) (hv : g.Valid) (hid : id < g.size) (hf : f id = id) :
    h.Decides cfg id dec ↔ g.Decides cfg id dec := by
  refine exists_congr fun s => ?_
  rw [hm.joinsAt_iff hv hid hf]
  refine and_congr_right fun hs => ?_
  rw [hm.requiresMpc_join hv hf hs]

end Plan

end PartyPlan
