import PartyPlan.Proofs.Feeding
import PartyPlan.Proofs.Freshness
import PartyPlan.Proofs.Refusal

/-! The exact effect of a special form. It is refused before anything has changed, or the plan that comes
out is known node by node: the new node, the one whose place it takes, the children of that, and all
others. Inputs may coincide, and a helper may be a parent or a child of the node that is replaced. -/
namespace PartyPlan

inductive SpecialForm where
  | indexJoin (id aligner : NodeId)
  | revealJoin (id : NodeId) (side : Side) (recipient : Party)
  | hybridJoin (id : NodeId) (trusted : Party)
  | indexAggregate (id eqFlags sortedKeys : NodeId)

namespace SpecialForm

def run : SpecialForm → Edit NodeId
  | indexJoin id aligner => Specialize.indexJoin id aligner
  | revealJoin id side recipient => Specialize.revealJoin id side recipient
  | hybridJoin id trusted => Specialize.hybridJoin id trusted
  | indexAggregate id eqFlags sortedKeys => Specialize.indexAggregate id eqFlags sortedKeys

def target : SpecialForm → NodeId
  | indexJoin id _ | revealJoin id _ _ | hybridJoin id _ | indexAggregate id _ _ => id

def helpers : SpecialForm → List NodeId
  | indexJoin _ aligner => [aligner]
  | indexAggregate _ eqFlags sortedKeys => [eqFlags, sortedKeys]
  | revealJoin .. | hybridJoin .. => []

def source : SpecialForm → Kind
  | indexJoin .. | revealJoin .. | hybridJoin .. => .join
  | indexAggregate .. => .aggregate

def Lacks (n : Node) : SpecialForm → Prop
  | indexJoin .. | revealJoin .. | hybridJoin .. => n.left? = none ∨ n.right? = none
  | indexAggregate .. => n.input? = none

def Refused (g : Plan) (s : SpecialForm) : Prop :=
  ¬ s.target < g.size ∨ (∃ n, g.get? s.target = some n ∧ (n.kind ≠ s.source ∨ s.Lacks n)) ∨
    ∃ p ∈ s.helpers, ¬ p < g.size

/-- The special form has the keys of the join, or what the aggregation folds and how, and refers to just
its helpers. An input that is shown is shown as it is produced. -/
def Carries (g : Plan) (n : Node) (op : Operator) : SpecialForm → Prop
  | indexJoin _ aligner => ∃ keys, n.op = .join keys ∧ op = .indexJoin keys aligner
  | revealJoin _ side recipient => ∃ keys shown, n.op = .join keys ∧
    op = .revealJoin keys ⟨side, shown, recipient⟩ ∧
    (side.pick n.left? n.right?).bind g.output? = some shown
  | hybridJoin _ trusted => ∃ keys, n.op = .join keys ∧ op = .hybridJoin keys trusted
  | indexAggregate _ eqFlags sortedKeys =>
    ∃ spec, n.op = .aggregate spec ∧ op = .indexAggregate spec eqFlags sortedKeys

end SpecialForm

/-- An operator has taken the place of a node, with further nodes above it. The new node is the last one.
It has the output, inputs and children of the old node, its parents and the further nodes for parents,
and its mark besides those of its own kind; the old node has no edges left. Former children have the new
node wherever they named or referred to the old one, and whoever is above the new node has it for a child
in the place of the old one. Nothing else has changed. -/
structure Plan.Replaced (g : Plan) (old : NodeId) (n : Node) (op : Operator) (further : List NodeId)
    (h : Plan) : Prop where
  size : h.size = g.size + 1
  roots : h.roots = g.roots
  new : h.get? g.size = some
    { id := g.size, op, output := n.output, isLocal := op.kind.isLocal,
      isMpc := n.isMpc || op.kind.isMpc, inputs := n.inputs,
      parents := n.parents.union (.ofList further), children := n.children }
  bare : h.get? old = some { n with parents := ∅, children := ∅, inputs := .vacant n.op.arity }
  children : ∀ c m, c ∈ n.children → g.get? c = some m → h.get? c = some { m with
    parents := (m.parents.erase old).insert g.size
    inputs := m.inputs.replace old g.size
    op := m.op.replaceHelper old g.size
    children := if c ∈ n.parents ∨ c ∈ further then (m.children.erase old).insert g.size
      else m.children }
  others : ∀ i m, i ≠ old → ¬ i ∈ n.children → g.get? i = some m → h.get? i = some { m with
    children := if i ∈ n.parents ∨ i ∈ further then (m.children.erase old).insert g.size
      else m.children }

namespace Plan.Replaceable

variable {g : Plan} {old : NodeId} {n : Node} {op : Operator} {further : List NodeId}

variable (hr : g.Replaceable old n (n.inputs.ids ++ further)) (hnone : n.op.helpers = [])
include hr hnone

/-- Who stands above the new node has it for a child in the place of the old one. -/
theorem children_handedOver {i : NodeId} {m : Node} (hm : g.get? i = some m) :
    (m.handedOver i old g.size (n.inputs.ids ++ further)).children =
      if i ∈ n.parents ∨ i ∈ further then (m.children.erase old).insert g.size else m.children := by
  have habove : i ∈ n.inputs.ids ++ further ↔ i ∈ n.parents ∨ i ∈ further := by
    rw [List.mem_append, (hr.valid.nodes old n hr.node).mem_ids_iff hnone]
  by_cases hi : i ∈ n.parents ∨ i ∈ further
  · simp only [Node.handedOver, habove, hi, if_true]
  · have hold : ¬ old ∈ m.children := fun hc => hi (.inl ((hr.mem_children_iff hm).mp hc))
    simp only [Node.handedOver, habove, hi, if_false]
    exact IdSet.erase_eq_self hold

theorem replaced (hin : (n.inputs.ids ++ further).foldl Inputs.attach (.vacant op.arity) = n.inputs) :
    g.Replaced old n op further (g.substituted old n op (n.inputs.ids ++ further)) where
  size := size_substituted
  roots := by simp [substituted]
  new := by
    have hparents : IdSet.ofList (n.inputs.ids ++ further) = n.parents.union (.ofList further) := by
      ext p
      simp [(hr.valid.nodes old n hr.node).mem_ids_iff hnone]
    rw [hr.get?_new op, hin, hparents]
    rfl
  bare := hr.get?_old op
  children c m hc hm := by
    have hparent : old ∈ m.parents := (hr.mem_parents_iff hm).mpr hc
    rw [hr.get?_other op (hr.child_ne hc) hm, ← hr.children_handedOver hnone hm]
    simp [Node.handedOver, hparent]
  others i m hi hc hm := by
    have hparent : ¬ old ∈ m.parents := mt (hr.mem_parents_iff hm).mp hc
    have hinputs : m.inputs.replace old g.size = m.inputs :=
      Inputs.replace_of_not_mem g.size fun h => hparent ((hr.valid.nodes i m hm).named old h)
    rw [hr.get?_other op hi hm, ← hr.children_handedOver hnone hm]
    simp [Node.handedOver, hparent, hinputs]

end Plan.Replaceable

namespace SpecialForm
open Edit Plan

variable {g : Plan} {n : Node} {s : SpecialForm} {d : Draft}

theorem exists_join (hkind : n.kind = .join) (hin : ¬ (n.left? = none ∨ n.right? = none)) :
    ∃ keys l r, n.op = .join keys ∧ n.inputs = .binary (some l) (some r) := by
  have hop : ∃ keys, n.op = .join keys := by
    unfold Node.kind at hkind
    cases hop : n.op with
    | join keys => exact ⟨keys, rfl⟩
    | _ => rw [hop] at hkind; cases hkind
  obtain ⟨keys, hop⟩ := hop
  unfold Node.left? Node.right? at hin
  cases hi : n.inputs with
  | binary left right =>
    cases left <;> cases right <;> simp [hi] at hin
    exact ⟨keys, _, _, hop, rfl⟩
  | unary input => simp [hi] at hin
  | nary ordered => simp [hi] at hin

theorem exists_aggregate (hkind : n.kind = .aggregate) (hin : ¬ n.input? = none) :
    ∃ spec p, n.op = .aggregate spec ∧ n.inputs = .unary (some p) := by
  have hop : ∃ spec, n.op = .aggregate spec := by
    unfold Node.kind at hkind
    cases hop : n.op with
    | aggregate spec => exact ⟨spec, rfl⟩
    | _ => rw [hop] at hkind; cases hkind
  obtain ⟨spec, hop⟩ := hop
  unfold Node.input? at hin
  cases hi : n.inputs with
  | unary input =>
    cases input <;> simp [hi] at hin
    exact ⟨spec, _, hop, rfl⟩
  | binary left right => simp [hi] at hin
  | nary ordered => simp [hi] at hin

/-- What a special form of a node comes to: an operator that is up to date where the node is. -/
structure Suits (s : SpecialForm) (g : Plan) (n : Node) (op : Operator) : Prop where
  carries : s.Carries g n op
  helperless : n.op.helpers = []
  inputs : (n.inputs.ids ++ s.helpers).foldl Inputs.attach (.vacant op.arity) = n.inputs
  current : op.refresh (n.inputs.read g.output?) = ⟨op, .ok ()⟩

theorem apply_require {id : NodeId} (hid : id < d.plan.size) : (require id).apply d = (.ok (), d) := by
  rcases checks_require id d with ⟨_, hok⟩ | ⟨hno, _⟩
  · exact hok
  · exact absurd hid hno

section Join

variable {id l r : NodeId} {keys : JoinKeys} (hn : d.plan.get? id = some n) (hop : n.op = .join keys)
  (hi : n.inputs = .binary (some l) (some r))
  (hcur : n.op.refresh (n.inputs.read d.plan.output?) = ⟨n.op, .ok ()⟩)
include hop hcur

omit hcur in
theorem helpers_join : n.op.helpers = [] := by rw [hop]; rfl

theorem keys_current : keys.refresh (n.inputs.read d.plan.output?).left
    (n.inputs.read d.plan.output?).right = ⟨keys, .ok ()⟩ := by
  rw [hop] at hcur
  exact JoinKeys.refresh_of_join hcur

include hn hi

theorem indexJoin_suits {aligner : NodeId} (haligner : aligner < d.plan.size) :
    (indexJoin id aligner).Suits d.plan n (.indexJoin keys aligner) ∧
      (Specialize.indexJoin id aligner).apply d =
        (Specialize.substitute id (.indexJoin keys aligner) (n.inputs.ids ++ [aligner])).apply d := by
  refine ⟨⟨⟨keys, hop, rfl⟩, helpers_join hop, by rw [hi]; rfl, ?_⟩, ?_⟩
  · simp [Operator.refresh, keys_current hop hcur, Refreshed.map]
  · rw [Specialize.indexJoin, apply_bind, apply_ask, generalJoin_of_node hn hop hi]
    dsimp only
    rw [apply_bind, apply_require haligner, hi]
    rfl

theorem hybridJoin_suits (trusted : Party) :
    (hybridJoin id trusted).Suits d.plan n (.hybridJoin keys trusted) ∧
      (Specialize.hybridJoin id trusted).apply d =
        (Specialize.substitute id (.hybridJoin keys trusted) (n.inputs.ids ++ [])).apply d := by
  refine ⟨⟨⟨keys, hop, rfl⟩, helpers_join hop, by rw [hi]; rfl, ?_⟩, ?_⟩
  · simp [Operator.refresh, keys_current hop hcur, Refreshed.map]
  · rw [Specialize.hybridJoin, apply_bind, apply_ask, generalJoin_of_node hn hop hi, hi]
    rfl

theorem revealJoin_suits (side : Side) (recipient : Party) {shown : Node}
    (hshown : d.plan.get? (side.pick l r) = some shown) :
    (revealJoin id side recipient).Suits d.plan n (.revealJoin keys ⟨side, shown.output, recipient⟩) ∧
      (Specialize.revealJoin id side recipient).apply d = (Specialize.substitute id
        (.revealJoin keys ⟨side, shown.output, recipient⟩) (n.inputs.ids ++ [])).apply d := by
  have hout : d.plan.output? (side.pick l r) = some shown.output := by
    rw [output?, hshown, Option.map_some]
  refine ⟨⟨⟨keys, shown.output, hop, rfl, ?_⟩, helpers_join hop, by rw [hi]; rfl, ?_⟩, ?_⟩
  · cases side <;> simpa [Node.left?, Node.right?, hi] using hout
  · have hnow : Revelation.refresh ⟨side, shown.output, recipient⟩ (n.inputs.read d.plan.output?).left
        (n.inputs.read d.plan.output?).right = ⟨side, shown.output, recipient⟩ := by
      rw [hi]
      cases side <;> simp_all [Revelation.refresh, Inputs.read]
    simp [Operator.refresh, keys_current hop hcur, Refreshed.done, hnow]
  · rw [Specialize.revealJoin, apply_bind, apply_ask, generalJoin_of_node hn hop hi]
    dsimp only
    rw [apply_bind, Edit.node, apply_ask, node_eq_ok.mpr hshown, hi]
    rfl

end Join

theorem indexAggregate_suits {id p eqFlags sortedKeys : NodeId} {spec : Aggregation}
    (hn : d.plan.get? id = some n) (hop : n.op = .aggregate spec) (hi : n.inputs = .unary (some p))
    (hcur : n.op.refresh (n.inputs.read d.plan.output?) = ⟨n.op, .ok ()⟩) (hp : p < d.plan.size)
    (hflags : eqFlags < d.plan.size) (hkeys : sortedKeys < d.plan.size) :
    (indexAggregate id eqFlags sortedKeys).Suits d.plan n (.indexAggregate spec eqFlags sortedKeys) ∧
      (Specialize.indexAggregate id eqFlags sortedKeys).apply d =
        (Specialize.substitute id (.indexAggregate spec eqFlags sortedKeys)
          (n.inputs.ids ++ [eqFlags, sortedKeys])).apply d := by
  obtain ⟨input, hinput⟩ := lt_size_iff.mp hp
  have hread : n.inputs.read d.plan.output? = { primary := some input.output } := by
    simp [hi, Inputs.read, output?, hinput]
  have hspec : spec.refresh input.output = ⟨spec, .ok ()⟩ := by
    rw [hop, hread] at hcur
    exact Refreshed.eq_of_map (fun _ _ he => Operator.aggregate.inj he) hcur
  refine ⟨⟨⟨spec, hop, rfl⟩, by rw [hop]; rfl, by rw [hi]; rfl, ?_⟩, ?_⟩
  · rw [hread]
    simp [Operator.refresh, Operator.refreshUnary, hspec, Refreshed.map]
  · rw [Specialize.indexAggregate, apply_bind, apply_ask, generalAggregation_of_node hn hop hi]
    dsimp only
    rw [apply_bind, apply_require hflags]
    dsimp only
    rw [apply_bind, apply_require hkeys, hi]
    rfl

/-- Where nothing is missing, a special form is put in the place of its node. -/
theorem exists_suits (hv : d.plan.Valid) (hn : d.plan.get? s.target = some n)
    (hcur : n.op.refresh (n.inputs.read d.plan.output?) = ⟨n.op, .ok ()⟩)
    (hs : ¬ s.Refused d.plan) : ∃ op, s.Suits d.plan n op ∧ s.run.apply d =
      (Specialize.substitute s.target op (n.inputs.ids ++ s.helpers)).apply d := by
  have hlt : ∀ p ∈ n.inputs.ids, p < d.plan.size := fun p hp =>
    hv.edges.parent_lt (mem_parentsOf.mpr ⟨n, hn, (hv.nodes _ n hn).named p hp⟩)
  have hkind : n.kind = s.source := by
    by_contra hne
    exact hs (.inr (.inl ⟨n, hn, .inl hne⟩))
  have hin : ¬ s.Lacks n := fun hlacks => hs (.inr (.inl ⟨n, hn, .inr hlacks⟩))
  have hknown : ∀ p ∈ s.helpers, p < d.plan.size := by
    intro p hp
    by_contra hno
    exact hs (.inr (.inr ⟨p, hp, hno⟩))
  cases s with
  | indexJoin id aligner =>
    obtain ⟨keys, l, r, hop, hi⟩ := exists_join hkind hin
    exact ⟨_, indexJoin_suits hn hop hi hcur (hknown aligner (by simp [helpers]))⟩
  | revealJoin id side recipient =>
    obtain ⟨keys, l, r, hop, hi⟩ := exists_join hkind hin
    have hside : side.pick l r < d.plan.size := by
      cases side <;> exact hlt _ (by simp [hi, Inputs.ids])
    obtain ⟨shown, hshown⟩ := lt_size_iff.mp hside
    exact ⟨_, revealJoin_suits hn hop hi hcur side recipient hshown⟩
  | hybridJoin id trusted =>
    obtain ⟨keys, l, r, hop, hi⟩ := exists_join hkind hin
    exact ⟨_, hybridJoin_suits hn hop hi hcur trusted⟩
  | indexAggregate id eqFlags sortedKeys =>
    obtain ⟨spec, p, hop, hi⟩ := exists_aggregate hkind hin
    exact ⟨_, indexAggregate_suits hn hop hi hcur (hlt p (by simp [hi, Inputs.ids]))
      (hknown eqFlags (by simp [helpers])) (hknown sortedKeys (by simp [helpers]))⟩

/-! What is refused has changed nothing. -/

/-- Where the node is as it should be, only a helper can be missing. -/
theorem Refused.exists_helper (h : s.Refused g) (hn : g.get? s.target = some n)
    (hkind : n.kind = s.source) (hin : ¬ s.Lacks n) : ∃ p ∈ s.helpers, ¬ p < g.size := by
  rcases h with hno | ⟨m, hm, hbad⟩ | hhelper
  · exact absurd (lt_size hn) hno
  · cases hn.symm.trans hm
    rcases hbad with hbad | hbad
    · exact absurd hkind hbad
    · exact absurd hbad hin
  · exact hhelper

theorem refused_of_question {α β : Type} {question : Plan → Except Error α} {f : α → Edit β}
    (hrest : ∀ a, question d.plan = .ok a → ∃ e, (f a).apply d = (.error e, d)) :
    ∃ e, (ask question >>= f).apply d = (.error e, d) := by
  rw [apply_bind, apply_ask]
  cases hq : question d.plan with
  | error e => exact ⟨e, rfl⟩
  | ok a => exact hrest a hq

theorem refused_of_require {β : Type} {id : NodeId} {f : Unit → Edit β}
    (hrest : id < d.plan.size → ∃ e, (f ()).apply d = (.error e, d)) :
    ∃ e, (require id >>= f).apply d = (.error e, d) := by
  rw [apply_bind]
  rcases checks_require id d with ⟨hid, hok⟩ | ⟨_, e, he⟩
  · rw [hok]
    exact hrest hid
  · exact ⟨e, by rw [he]⟩

theorem Refused.exists_helper_join {id : NodeId} {join : GeneralJoin} (h : s.Refused g)
    (htarget : s.target = id) (hj : g.generalJoin id = .ok join) (hsource : s.source = .join)
    (hlacks : ∀ n : Node, s.Lacks n → n.left? = none ∨ n.right? = none) :
    ∃ p ∈ s.helpers, ¬ p < g.size := by
  obtain ⟨n, hn, hop, hi⟩ := generalJoin_eq_ok hj
  refine h.exists_helper (htarget ▸ hn) (by rw [Node.kind, hop, hsource]; rfl) fun hl => ?_
  simpa [Node.left?, Node.right?, hi] using hlacks n hl

theorem run_refused (h : s.Refused d.plan) : ∃ e, s.run.apply d = (.error e, d) := by
  cases s with
  | indexJoin id aligner =>
    refine refused_of_question fun join hj => refused_of_require fun hlt => ?_
    obtain ⟨p, hp, hno⟩ := h.exists_helper_join rfl hj rfl fun _ hl => hl
    cases List.mem_singleton.mp hp
    exact absurd hlt hno
  | revealJoin id side recipient =>
    refine refused_of_question fun join hj => ?_
    obtain ⟨p, hp, _⟩ := h.exists_helper_join rfl hj rfl fun _ hl => hl
    exact absurd hp List.not_mem_nil
  | hybridJoin id trusted =>
    refine refused_of_question fun join hj => ?_
    obtain ⟨p, hp, _⟩ := h.exists_helper_join rfl hj rfl fun _ hl => hl
    exact absurd hp List.not_mem_nil
  | indexAggregate id eqFlags sortedKeys =>
    refine refused_of_question fun agg ha => refused_of_require fun hflags =>
      refused_of_require fun hkeys => ?_
    obtain ⟨n, hn, hop, hi⟩ := generalAggregation_eq_ok ha
    have hkind : n.kind = .aggregate := by rw [Node.kind, hop]; rfl
    have hin : ¬ n.input? = none := by simp [Node.input?, hi]
    obtain ⟨p, hp, hno⟩ := h.exists_helper hn hkind hin
    rcases List.mem_cons.mp hp with rfl | hp
    · exact absurd hflags hno
    · cases List.mem_singleton.mp hp
      exact absurd hkeys hno

end SpecialForm

/-- In a plan that passes validation and where looking up columns again would change no node, a special
form of a node that is not its own child, with other nodes for helpers, is refused just when the node is
unknown, of another kind or without an input, or a helper is unknown; then nothing has changed. Else it
takes the place of the node, under the next free number, and all that happens is what that takes. There
may be cycles, and the node may be out of reach. -/
theorem special_form_exact (d : Draft) (s : SpecialForm) (hnum : d.plan.Numbered)
    (hv : d.plan.validate = .ok ())
    (hup : ∀ id < d.plan.size,
      (Edit.refreshColumns id).apply ⟨d.plan, []⟩ = (.ok (), ⟨d.plan, []⟩))
    (hself : ¬ d.plan.Edge s.target s.target) (hother : ¬ s.target ∈ s.helpers) :
    (s.Refused d.plan → ∃ e, s.run.apply d = (.error e, d)) ∧
    (¬ s.Refused d.plan → ∃ n op d', d.plan.get? s.target = some n ∧ s.Carries d.plan n op ∧
      s.run.apply d = (.ok d.plan.size, d') ∧
      d.plan.Replaced s.target n op s.helpers d'.plan) := by
  refine ⟨SpecialForm.run_refused, fun hs => ?_⟩
  have hvalid : d.plan.Valid := (Plan.validate_eq_ok_iff hnum).mp hv
  have hcurrent : ∀ i m, d.plan.get? i = some m →
      m.op.refresh (d.plan.operatorInputs i) = ⟨m.op, .ok ()⟩ := fun i m hm =>
    Edit.refresh_of_idle (d := ⟨d.plan, []⟩) hm (hup i (Plan.lt_size hm))
  have htarget : s.target < d.plan.size := by
    by_contra hno
    exact hs (.inl hno)
  obtain ⟨n, hn⟩ := Plan.lt_size_iff.mp htarget
  have hcur := hcurrent s.target n hn
  rw [Plan.operatorInputs_eq hn] at hcur
  obtain ⟨op, hsuits, hrun⟩ := SpecialForm.exists_suits hvalid hn hcur hs
  have hedge : ∀ p ∈ n.inputs.ids, d.plan.Edge p s.target := fun p hp =>
    (hvalid.edges p s.target).mp (Plan.mem_parentsOf.mpr ⟨n, hn, (hvalid.nodes _ n hn).named p hp⟩)
  have hr : d.plan.Replaceable s.target n (n.inputs.ids ++ s.helpers) := by
    refine ⟨hn, hvalid, hcurrent, fun hc => hself (Plan.mem_childrenOf.mpr ⟨n, hn, hc⟩), fun p hp => ?_,
      fun hmem => ?_⟩
    · rcases List.mem_append.mp hp with hp | hp
      · exact (hedge p hp).lt_size
      · by_contra hno
        exact hs (.inr (.inr ⟨p, hp, hno⟩))
    · rcases List.mem_append.mp hmem with hmem | hmem
      · exact hself (hedge _ hmem)
      · exact hother hmem
  have hids : ∀ p ∈ ((n.inputs.ids ++ s.helpers).foldl Inputs.attach (.vacant op.arity)).ids,
      p ∈ n.inputs.ids ++ s.helpers := by
    rw [hsuits.inputs]
    exact fun p hp => List.mem_append_left _ hp
  have hexact := Edit.substitute_exact hr hids (by rw [hsuits.inputs]; exact hsuits.current)
  obtain ⟨new, d', hok, hplan, rfl⟩ := hexact.succeeds rfl
  exact ⟨n, op, d', hn, hsuits.carries, hrun.trans hok, hplan ▸ hr.replaced hsuits.helperless hsuits.inputs⟩

/-- A join of a node with itself, aligned through the numbers of its own rows: both inputs are one node,
and the helper is a child of the join. -/
theorem numberedJoin_special_form_exact :
    let s := SpecialForm.indexJoin 1 2
    ((numberedJoin.plan.get? 1).map (·.inputs) = some (.binary (some 0) (some 0)) ∧
      numberedJoin.plan.Edge 1 2 ∧ ¬ s.Refused numberedJoin.plan) ∧
    ∃ n op d', numberedJoin.plan.get? 1 = some n ∧ s.Carries numberedJoin.plan n op ∧
      s.run.apply numberedJoin = (.ok 3, d') ∧ numberedJoin.plan.Replaced 1 n op [2] d'.plan := by
  have hnum : numberedJoin.plan.Numbered := fun i n hn => (numberedJoin_linked.nodes i n hn).id
  have hv : numberedJoin.plan.validate = .ok () := by decide +kernel
  have hup : ∀ id < 3, (Edit.refreshColumns id).apply ⟨numberedJoin.plan, []⟩ =
      (.ok (), ⟨numberedJoin.plan, []⟩) := by decide +kernel
  have hself : ¬ numberedJoin.plan.Edge 1 1 := fun he => numberedJoin_cycleFree 1 (.single he)
  have hbelow : 2 ∈ (numberedJoin.plan.childrenOf 1).toList := by decide +kernel
  have hok : ((SpecialForm.indexJoin 1 2).run.apply numberedJoin).1 = .ok 3 := by decide +kernel
  obtain ⟨hrefused, hdone⟩ := special_form_exact numberedJoin (.indexJoin 1 2) hnum hv hup hself (by decide)
  have hs : ¬ (SpecialForm.indexJoin 1 2).Refused numberedJoin.plan := by
    intro hs
    obtain ⟨e, he⟩ := hrefused hs
    rw [he] at hok
    cases hok
  exact ⟨⟨by decide +kernel, IdSet.mem_def.mpr hbelow, hs⟩, hdone hs⟩

end PartyPlan
