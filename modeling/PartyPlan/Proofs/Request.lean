import PartyPlan.Proofs.Integrity
import PartyPlan.Proofs.Substitution

/-! What a request for an operator comes to. All it asks of a plan is what its inputs produce. From this
an operator and its output are derived, or the request is refused and nothing has happened yet. What was
derived is then put at the end of the plan, below its inputs. -/
namespace PartyPlan

/-- What a node produces, for a caller who may have the wrong number. -/
def Plan.relationOf (g : Plan) (id : NodeId) : Except Error Relation := (g.node id).map (·.output)

theorem Plan.relationOf_eq_ok {g : Plan} {id : NodeId} {r : Relation} :
    g.relationOf id = .ok r ↔ g.output? id = some r := by
  unfold relationOf node output?
  cases g.get? id <;> simp [Except.map]

theorem Plan.relationOf_eq_error {g : Plan} {id : NodeId} {e : Error} :
    g.relationOf id = .error e ↔ ¬ id < g.size ∧ e = .unknownNode id := by
  rw [lt_size_iff]
  unfold relationOf node
  cases g.get? id <;> simp [Except.map, eq_comm]

namespace Builder

def reads : Builder → List NodeId
  | create .. => []
  | join left right .. | indexJoin left right .. => [left, right]
  | concat inputs .. => inputs
  | aggregate input .. | indexAggregate input .. | sortBy input .. | project input ..
  | distinct input .. | multiply input .. | divide input .. | filter input .. | index input ..
  | compareNeighbours input .. | shuffle input .. | persist input .. | store input ..
  | closing input .. | opening input .. | send input .. => [input]

def helpers : Builder → List NodeId
  | indexAggregate _ _ _ _ _ _ eqFlags sortedKeys => [eqFlags, sortedKeys]
  | indexJoin _ _ _ _ _ aligner => [aligner]
  | _ => []

theorem inputs_eq (b : Builder) : b.inputs = b.reads ++ b.helpers := by
  cases b <;> simp [inputs, reads, helpers]

def name : Builder → String
  | create name .. | join _ _ name .. | indexJoin _ _ name .. | concat _ name _
  | aggregate _ name .. | indexAggregate _ name .. | sortBy _ name _ | project _ name _
  | distinct _ name _ | multiply _ name .. | divide _ name .. | filter _ name .. | index _ name _
  | compareNeighbours _ name _ | shuffle _ name | persist _ name | store _ name
  | closing _ name _ | opening _ name _ | send _ name _ => name

/-- The kind of operator that is derived. A special form starts out as a general one. -/
def kind : Builder → Kind
  | create .. => .create
  | aggregate .. | indexAggregate .. => .aggregate
  | sortBy .. => .sortBy
  | project .. => .project
  | distinct .. => .distinct
  | multiply .. => .multiply
  | divide .. => .divide
  | filter .. => .filter
  | join .. | indexJoin .. => .join
  | concat .. => .concat
  | index .. => .index
  | compareNeighbours .. => .compareNeighbours
  | shuffle .. => .shuffle
  | persist .. => .persist
  | store .. => .store
  | closing .. => .closing
  | opening .. => .opening
  | send .. => .send

/-- The operator and output of a request where each node produces what `out` says. -/
def deriveFrom (out : NodeId → Except Error Relation) : Builder → Except Error Derived
  | create name columns holders => Derive.create name columns holders
  | aggregate input name groupBy folded aggregator result
  | indexAggregate input name groupBy folded aggregator result _ _ => do
    Derive.aggregate (← out input) name groupBy folded aggregator result
  | sortBy input name column => do Derive.sortBy (← out input) name column
  | project input name columns => do Derive.project (← out input) name columns
  | distinct input name columns => do Derive.distinct (← out input) name columns
  | multiply input name target operands => do
    Derive.arithmetic .multiply (← out input) name target operands
  | divide input name target operands => do
    Derive.arithmetic .divide (← out input) name target operands
  | filter input name column comparison expression => do
    Derive.filter (← out input) name column comparison expression
  | join left right name leftKeys rightKeys | indexJoin left right name leftKeys rightKeys _ =>
    if leftKeys.isEmpty ∨ leftKeys.length ≠ rightKeys.length then
      .error (.argument (.keyLists name leftKeys.length rightKeys.length))
    else do Derive.join (← out left) (← out right) name leftKeys rightKeys
  | concat inputs name names =>
    if inputs.length < 2 then .error (.argument (.tooFewInputs name inputs.length))
    else if ¬ inputs.Nodup then .error (.argument (.repeatedInput name))
    else do Derive.concat (← inputs.mapM out) name names
  | index input name column => do Derive.index (← out input) name column
  | compareNeighbours input name column => do Derive.compareNeighbours (← out input) name column
  | shuffle input name => do return Derive.pass .shuffle (← out input) name
  | persist input name => do return Derive.pass .persist (← out input) name
  | store input name => do return Derive.pass .store (← out input) name
  | closing input name parties => do return Derive.passTo .closing (← out input) name parties
  | opening input name party => do return Derive.passTo .opening (← out input) name (.singleton party)
  | send input name parties => do return Derive.passTo .send (← out input) name parties

def derive (out : NodeId → Except Error Relation) (b : Builder) : Except Error Derived :=
  b.helpers.foldr (fun p rest => do let _ ← out p; rest) (b.deriveFrom out)

def form : Builder → Operator → Operator
  | indexAggregate _ _ _ _ _ _ eqFlags sortedKeys, .aggregate spec =>
    .indexAggregate spec eqFlags sortedKeys
  | indexJoin _ _ _ _ _ aligner, .join keys => .indexJoin keys aligner
  | _, op => op

def nodeAt (b : Builder) (v : Derived) (id : NodeId) : Node :=
  { Node.detached id (b.form v.op) v.output with
    inputs := .seated (b.form v.op).arity b.reads
    parents := .ofList b.inputs }

def carryOut (v : Derived) : Builder → Edit NodeId
  | create .. => do
    let id ← Edit.addNode v.op v.output
    Edit.addRoot id
    return id
  | indexAggregate input _ _ _ _ _ eqFlags sortedKeys => do
    let id ← Build.attach [input] v
    Specialize.indexAggregate id eqFlags sortedKeys
  | indexJoin left right _ _ _ aligner => do
    let id ← Build.attach [left, right] v
    Specialize.indexJoin id aligner
  | b => Build.attach b.reads v

variable {b : Builder}

/-- Only a special form leaves a node behind. -/
theorem added_eq_one_iff : b.added = 1 ↔ b.helpers = [] := by
  cases b <;> simp [added, helpers]

theorem helpers_of_create (hk : b.kind = .create) : b.helpers = [] := by
  cases b with
  | create => rfl
  | _ => cases hk

theorem form_of_helpers (hh : b.helpers = []) (op : Operator) : b.form op = op := by
  cases b with
  | indexAggregate => cases hh
  | indexJoin => cases hh
  | _ => rfl

theorem inputs_of_helpers (hh : b.helpers = []) : b.inputs = b.reads := by
  rw [b.inputs_eq, hh, List.append_nil]

end Builder

theorem Operator.eq_create_of_kind {op : Operator} (h : op.kind = .create) : op = .create := by
  cases op with
  | create => rfl
  | _ => cases h

theorem Operator.eq_aggregate_of_kind {op : Operator} (h : op.kind = .aggregate) :
    ∃ spec, op = .aggregate spec := by
  cases op with
  | aggregate spec => exact ⟨spec, rfl⟩
  | _ => cases h

theorem Operator.eq_join_of_kind {op : Operator} (h : op.kind = .join) : ∃ keys, op = .join keys := by
  cases op with
  | join keys => exact ⟨keys, rfl⟩
  | _ => cases h

namespace Edit

variable {α β : Type} {d : Draft}

/-- Going on with a value that took two steps to find. -/
theorem settle_bind (x : Except Error α) (f : α → Except Error β) {γ : Type} (k : β → Edit γ) :
    (settle (x >>= f) >>= k) = (do let a ← settle x; let b ← settle (f a); k b) := by
  cases x <;> rfl

/-- Work that only asks for a value is as good as the value. -/
theorem apply_bind_of_asks {x : Edit α} {y : Except Error α} (hx : x.apply d = (y, d))
    (f : α → Edit β) : (x >>= f).apply d = (settle y >>= f).apply d := by
  rw [apply_bind, apply_bind, hx, apply_settle]

theorem apply_outputOf (id : NodeId) (d : Draft) :
    (Build.outputOf id).apply d = (d.plan.relationOf id, d) := by
  unfold Build.outputOf Plan.relationOf node
  rw [apply_bind, apply_ask]
  cases d.plan.node id <;> rfl

theorem apply_require (id : NodeId) (d : Draft) :
    (require id).apply d = (do let _ ← d.plan.relationOf id, d) := by
  unfold require Plan.relationOf node
  rw [apply_bind, apply_ask]
  cases d.plan.node id <;> rfl

theorem apply_outputs (ids : List NodeId) (d : Draft) :
    (ids.mapM Build.outputOf).apply d = (ids.mapM d.plan.relationOf, d) := by
  induction ids with
  | nil => rfl
  | cons id ids ih =>
    rw [List.mapM_cons, List.mapM_cons, apply_bind, apply_outputOf]
    cases d.plan.relationOf id with
    | error e => rfl
    | ok r =>
      dsimp only
      rw [apply_bind, ih]
      cases ids.mapM d.plan.relationOf <;> rfl

end Edit

namespace Build
open Edit

variable {g : Plan}

theorem apply_unary (input : NodeId) (derive : Relation → Except Error Derived) (d : Draft) :
    (unary input derive).apply d =
      (do let v ← settle (d.plan.relationOf input >>= derive); attach [input] v).apply d := by
  rw [settle_bind]
  exact apply_bind_of_asks (apply_outputOf input d) _

theorem apply_join (left right : NodeId) (name : String) (leftKeys rightKeys : List String) (d : Draft) :
    (join left right name leftKeys rightKeys).apply d = (do
      let v ← settle ((Builder.join left right name leftKeys rightKeys).deriveFrom d.plan.relationOf)
      attach [left, right] v).apply d := by
  rw [join, Builder.deriveFrom]
  split
  · rfl
  · rw [apply_bind_of_asks (apply_outputOf left d), settle_bind]
    cases d.plan.relationOf left with
    | error e => rfl
    | ok l =>
      show (outputOf right >>= _).apply d = (settle (d.plan.relationOf right >>= _) >>= _).apply d
      rw [apply_bind_of_asks (apply_outputOf right d), settle_bind]

theorem apply_concat (inputs : List NodeId) (name : String) (names : Option (List String)) (d : Draft) :
    (concat inputs name names).apply d = (do
      let v ← settle ((Builder.concat inputs name names).deriveFrom d.plan.relationOf)
      attach inputs v).apply d := by
  rw [concat, Builder.deriveFrom]
  dsimp only
  split
  · rfl
  split
  · rfl
  · rw [apply_bind_of_asks (apply_outputs inputs d), settle_bind]

/-- A node that has to be there is asked for before the rest is found out. -/
theorem apply_require_bind {α : Type} {p : NodeId} {d : Draft} {x : Edit α} {y : Except Error Derived}
    {k : Derived → Edit α} (hx : x.apply d = (settle y >>= k).apply d) :
    (do require p; x).apply d = (settle (do let _ ← d.plan.relationOf p; y) >>= k).apply d := by
  rw [apply_bind_of_asks (apply_require p d)]
  cases d.plan.relationOf p with
  | error e => rfl
  | ok r => exact hx

theorem apply_bind_congr {α β : Type} {d : Draft} {x y : Edit α} (h : x.apply d = y.apply d)
    (f : α → Edit β) : (x >>= f).apply d = (y >>= f).apply d := by
  rw [apply_bind, apply_bind, h]

/-- A request first finds out what it is to add, and only then adds it. -/
theorem apply_run (b : Builder) (d : Draft) :
    b.run.apply d = (do let v ← settle (b.derive d.plan.relationOf); b.carryOut v).apply d := by
  cases b with
  | create => rfl
  | indexAggregate input name groupBy folded aggregator result eqFlags sortedKeys =>
    have hunary := apply_bind_congr
      (apply_unary input (fun r => Derive.aggregate r name groupBy folded aggregator result) d)
      fun id => Specialize.indexAggregate id eqFlags sortedKeys
    rw [bind_assoc] at hunary
    exact apply_require_bind (apply_require_bind hunary)
  | join left right name leftKeys rightKeys => exact apply_join left right name leftKeys rightKeys d
  | indexJoin left right name leftKeys rightKeys aligner =>
    have hjoin := apply_bind_congr (apply_join left right name leftKeys rightKeys d)
      fun id => Specialize.indexJoin id aligner
    rw [bind_assoc] at hjoin
    exact apply_require_bind hjoin
  | concat inputs name names => exact apply_concat inputs name names d
  | _ => exact apply_unary _ _ d

end Build

namespace Builder

variable {out : NodeId → Except Error Relation} {b : Builder} {rels : List Relation} {v : Derived}

/-- A request has to find its helpers, and nothing else is asked of them. -/
theorem derive_eq_ok : b.derive out = .ok v ↔
    (∀ p ∈ b.helpers, ∃ r, out p = .ok r) ∧ b.deriveFrom out = .ok v := by
  unfold derive
  induction b.helpers with
  | nil => simp
  | cons p ps ih =>
    rw [List.foldr_cons, except_bind_eq_ok, List.forall_mem_cons]
    simp only [ih, exists_and_right, and_assoc]

theorem derive_eq_error {e : Error} (h : b.derive out = .error e) :
    (∃ p ∈ b.helpers, out p = .error e) ∨ b.deriveFrom out = .error e := by
  unfold derive at h
  revert h
  induction b.helpers with
  | nil => exact .inr
  | cons p ps ih =>
    intro h
    rw [List.foldr_cons] at h
    rcases except_bind_eq_error.mp h with hp | ⟨_, _, h⟩
    · exact .inl ⟨p, by simp, hp⟩
    · exact (ih h).imp_left fun ⟨q, hq, he⟩ => ⟨q, by simp [hq], he⟩

structure Yields (b : Builder) (rels : List Relation) (v : Derived) : Prop where
  kind : v.op.kind = b.kind
  source : b.kind = .create ↔ b.reads = []
  name : v.output.name = b.name
  output : v.output.WellFormed
  holders : b.kind.placesOutput = false → v.output.holders = Relation.holdersOf rels
  suits : b.kind ≠ .create → v.Suits b.reads rels

theorem yields_of_unary {input : NodeId} {f : Relation → Except Error Derived}
    (hreads : b.reads = [input]) (h : (out input >>= f) = .ok v)
    (hf : ∀ r, f r = .ok v → v.Fits r ∧ v.op.kind = b.kind ∧ v.output.name = b.name ∧
      (b.kind.placesOutput = false → v.output.holders = r.holders)) :
    ∃ rels, List.Forall₂ (fun p r => out p = .ok r) b.reads rels ∧ b.Yields rels v := by
  obtain ⟨r, hr, h⟩ := except_bind_eq_ok.mp h
  obtain ⟨hfits, hkind, hname, hholders⟩ := hf r h
  refine ⟨[r], hreads ▸ .cons hr .nil, hkind, ?_, hname, hfits.output, fun hp => ?_, fun _ => ?_⟩
  · simp [hreads, ← hkind, hfits.reads]
  · rw [Relation.holdersOf_singleton, hholders hp]
  · exact hreads ▸ hfits.suits input

theorem join_of_deriveFrom {left right : NodeId} {name : String} {leftKeys rightKeys : List String}
    (h : (Builder.join left right name leftKeys rightKeys).deriveFrom out = .ok v) :
    ∃ l r, out left = .ok l ∧ out right = .ok r ∧ Derive.join l r name leftKeys rightKeys = .ok v := by
  rw [deriveFrom] at h
  split at h
  · cases h
  obtain ⟨l, hl, h⟩ := except_bind_eq_ok.mp h
  obtain ⟨r, hr, h⟩ := except_bind_eq_ok.mp h
  exact ⟨l, r, hl, hr, h⟩

theorem concat_of_deriveFrom {inputs : List NodeId} {name : String} {names : Option (List String)}
    (h : (Builder.concat inputs name names).deriveFrom out = .ok v) :
    ¬ inputs.length < 2 ∧ inputs.Nodup ∧
      ∃ rels, inputs.mapM out = .ok rels ∧ Derive.concat rels name names = .ok v := by
  rw [deriveFrom] at h
  split at h
  · cases h
  next hlen =>
  split at h
  · cases h
  next hnodup => exact ⟨hlen, not_not.mp hnodup, except_bind_eq_ok.mp h⟩

theorem yields_of_join {left right : NodeId} {name : String} {leftKeys rightKeys : List String}
    (hkind : b.kind = .join) (hname : b.name = name) (hreads : b.reads = [left, right])
    (h : (Builder.join left right name leftKeys rightKeys).deriveFrom out = .ok v) :
    ∃ rels, List.Forall₂ (fun p r => out p = .ok r) b.reads rels ∧ b.Yields rels v := by
  obtain ⟨l, r, hl, hr, h⟩ := join_of_deriveFrom h
  obtain ⟨keys, hop, hout, hkeys⟩ := Derive.join_eq_ok h
  obtain ⟨_, _, _, _, rfl⟩ := Derive.join_result h
  exact ⟨[l, r], hreads ▸ .cons hl (.cons hr .nil), hkind.symm, by simp [hkind, hreads], hname.symm,
    hout, fun _ => rfl, fun _ => hreads ▸ .join hop hout hkeys⟩

theorem yields_of_concat {inputs : List NodeId} {name : String} {names : Option (List String)}
    (h : (Builder.concat inputs name names).deriveFrom out = .ok v) :
    ∃ rels, List.Forall₂ (fun p r => out p = .ok r) inputs rels ∧
      (Builder.concat inputs name names).Yields rels v := by
  obtain ⟨hlen, hnodup, rels, hrels, h⟩ := concat_of_deriveFrom h
  obtain ⟨hop, hout⟩ := Derive.concat_eq_ok h
  obtain rfl := Derive.concat_result h
  have hne : inputs ≠ [] := by
    rintro rfl
    exact hlen (by simp)
  exact ⟨rels, mapM_eq_ok.mp hrels, rfl, by simp [kind, reads, hne], rfl, hout, fun _ => rfl,
    fun _ => .concat hop hout hnodup⟩

/-- What is derived for a request, of whatever kind, goes with it. -/
theorem yields_of_deriveFrom (h : b.deriveFrom out = .ok v) :
    ∃ rels, List.Forall₂ (fun p r => out p = .ok r) b.reads rels ∧ b.Yields rels v := by
  cases b with
  | create name columns holders =>
    have hout := (Derive.create_wellFormed h).2
    obtain rfl := Derive.create_result h
    exact ⟨[], .nil, rfl, by simp [kind, reads], rfl, hout, nofun, fun hk => absurd rfl hk⟩
  | aggregate | indexAggregate =>
    refine yields_of_unary rfl h fun r hr => ?_
    have hfits := Derive.aggregate_fits hr
    obtain ⟨_, _, _, _, rfl⟩ := Derive.aggregate_result hr
    exact ⟨hfits, rfl, rfl, fun _ => rfl⟩
  | sortBy =>
    refine yields_of_unary rfl h fun r hr => ?_
    have hfits := Derive.sortBy_fits hr
    obtain ⟨_, _, rfl⟩ := Derive.sortBy_result hr
    exact ⟨hfits, rfl, rfl, fun _ => rfl⟩
  | project =>
    refine yields_of_unary rfl h fun r hr => ?_
    have hfits := Derive.project_fits hr
    obtain ⟨_, _, rfl⟩ := Derive.project_result hr
    exact ⟨hfits, rfl, rfl, fun _ => rfl⟩
  | distinct =>
    refine yields_of_unary rfl h fun r hr => ?_
    have hfits := Derive.distinct_fits hr
    obtain ⟨_, _, rfl⟩ := Derive.distinct_result hr
    exact ⟨hfits, rfl, rfl, fun _ => rfl⟩
  | multiply =>
    refine yields_of_unary rfl h fun r hr => ?_
    have hfits := Derive.multiply_fits hr
    obtain ⟨_, _, _, _, _, _, _, rfl⟩ := Derive.arithmetic_result hr
    exact ⟨hfits, rfl, rfl, fun _ => rfl⟩
  | divide =>
    refine yields_of_unary rfl h fun r hr => ?_
    have hfits := Derive.divide_fits hr
    obtain ⟨_, _, _, _, _, _, _, rfl⟩ := Derive.arithmetic_result hr
    exact ⟨hfits, rfl, rfl, fun _ => rfl⟩
  | filter =>
    refine yields_of_unary rfl h fun r hr => ?_
    have hfits := Derive.filter_fits hr
    obtain ⟨_, _, _, _, rfl⟩ := Derive.filter_result hr
    exact ⟨hfits, rfl, rfl, fun _ => rfl⟩
  | join | indexJoin => exact yields_of_join rfl rfl rfl h
  | concat => exact yields_of_concat h
  | index =>
    refine yields_of_unary rfl h fun r hr => ?_
    have hfits := Derive.index_fits hr
    obtain rfl := Derive.index_result hr
    exact ⟨hfits, rfl, rfl, fun _ => rfl⟩
  | compareNeighbours =>
    refine yields_of_unary rfl h fun r hr => ?_
    have hfits := Derive.compareNeighbours_fits hr
    obtain ⟨_, _, rfl⟩ := Derive.compareNeighbours_result hr
    exact ⟨hfits, rfl, rfl, fun _ => rfl⟩
  | shuffle | persist | store =>
    refine yields_of_unary rfl h fun r hr => ?_
    cases hr
    refine ⟨Derive.pass_fits ?_ ?_ ?_ ?_ r _, rfl, rfl, fun _ => rfl⟩
    exacts [rfl, nofun, rfl, fun _ => trivial]
  | closing | opening | send =>
    refine yields_of_unary rfl h fun r hr => ?_
    cases hr
    refine ⟨Derive.passTo_fits ?_ ?_ ?_ ?_ r _ _, rfl, rfl, nofun⟩
    exacts [rfl, nofun, rfl, fun _ => trivial]

end Builder

namespace Node

variable {n : Node} {i c : NodeId} {ps : List NodeId}

/-- A node that is not the one that was linked at most gained it as a child. -/
theorem linkedIn_of_ne (hi : i ≠ c) : n.linkedIn i c ps = if i ∈ ps then n.withChild c else n := by
  by_cases hp : i ∈ ps <;> simp [linkedIn, withChild, hi, hp]

theorem withoutChild_withChild (hc : ¬ c ∈ n.children) : (n.withChild c).withoutChild c = n := by
  have hback : (n.children.insert c).erase c = n.children := by
    ext b
    simp only [IdSet.mem_erase, IdSet.mem_insert]
    constructor
    · rintro ⟨rfl | hb, hne⟩
      · exact absurd rfl hne
      · exact hb
    · intro hb
      exact ⟨.inr hb, fun he => hc (he ▸ hb)⟩
  simp [withoutChild, withChild, hback]

end Node

namespace Plan

variable {g h : Plan} {inputs hs : List NodeId} {rels : List Relation} {b : Builder} {v : Derived}
  {d : Derived} {op : Operator} {n : Node} {i id : NodeId}

/-- `h` is `g` with nodes added at the end. The last of them stands below the inputs; those before it
are left without edges. A node that was there gains the last one as a child if it is an input, and is
else the same. A node without inputs is a source, and becomes a root. -/
structure Grown (g : Plan) (inputs : List NodeId) (added : Nat) (id : NodeId) (h : Plan) : Prop where
  size : h.size = g.size + added
  last : id + 1 = h.size
  known : ∀ p ∈ inputs, p < g.size
  kept : ∀ i < g.size, h.get? i = (g.get? i).map fun n => if i ∈ inputs then n.withChild id else n
  spare : ∀ i, g.size ≤ i → i < id → ∃ n, h.get? i = some n ∧ n.Bare ∧ n.kind ≠ .create
  placed : ∃ n, h.get? id = some n ∧ n.children = ∅ ∧ (∀ p, p ∈ n.parents ↔ p ∈ inputs) ∧
    (n.kind = .create ↔ inputs = [])
  roots : h.roots = if inputs = [] then g.roots.insert id else g.roots

theorem Grown.output? (hg : g.Grown inputs added id h) (hi : i < g.size) : h.output? i = g.output? i := by
  rw [Plan.output?, Plan.output?, hg.kept i hi, Option.map_map]
  congr 1
  funext n
  by_cases hp : i ∈ inputs <;> simp [hp, Node.withChild]

theorem get?_attached (hi : i < g.size) : (g.attached inputs d).get? i =
    (g.get? i).map fun n => if i ∈ inputs then n.withChild g.size else n := by
  have hne : i ≠ g.size := Nat.ne_of_lt hi
  rw [attached, get?_linkAll, get?_push, if_neg hne]
  congr 1
  funext n
  exact Node.linkedIn_of_ne hne

theorem Mutual.attached (hg : g.Mutual) (hin : ∀ p ∈ inputs, p < g.size) :
    (g.attached inputs d).Mutual := by
  have hpushed : ∀ p ∈ inputs, p < (g.push d.op d.output).size := fun p hp => by
    simpa using Nat.lt_succ_of_lt (hin p hp)
  intro q c
  rw [Plan.attached, mem_parentsOf_linkAll (by simp), mem_childrenOf_linkAll hpushed, parentsOf_push,
    childrenOf_push, hg q c]
  tauto

/-- The general form of a request, before it gives way to the special one. -/
theorem get?_planted_old (hin : ∀ p ∈ inputs ++ hs, p < g.size)
    (hn : (g.attached inputs d).get? g.size = some n) :
    ((g.attached inputs d).planted g.size n op (inputs ++ hs)).get? g.size =
      some (.detached g.size d.op d.output) := by
  have hother : g.size ≠ (g.attached inputs d).size := by simp
  have hold : ¬ g.size ∈ inputs ++ hs := fun hp => Nat.lt_irrefl _ (hin _ hp)
  rw [get?_attached_new fun p hp => hin p (by simp [hp])] at hn
  cases hn
  rw [get?_planted hother, get?_attached_new fun p hp => hin p (by simp [hp]), Option.map_some,
    if_pos rfl, Node.linkedIn_of_ne hother, if_neg hold]
  rfl

/-- A node above the general form forgets it, and knows the special one in its stead. -/
theorem get?_planted_above (hg : g.Mutual) (hi : i < g.size) :
    ((g.attached inputs d).planted g.size n op hs).get? i =
      (g.get? i).map fun m => if i ∈ hs then m.withChild (g.size + 1) else m := by
  have hnew : i ≠ (g.attached inputs d).size := by
    rw [size_attached]
    exact Nat.ne_of_lt (Nat.lt_succ_of_lt hi)
  rw [get?_planted hnew, get?_attached hi]
  cases hm : g.get? i with
  | none => rfl
  | some m =>
    have hfresh : ¬ g.size ∈ m.children := fun hc =>
      Nat.lt_irrefl _ (hg.child_lt (mem_childrenOf.mpr ⟨m, hm, hc⟩))
    have hback : (if i ∈ inputs then m.withChild g.size else m).withoutChild g.size = m := by
      split
      · exact Node.withoutChild_withChild hfresh
      · exact Node.withoutChild_of_not_mem hfresh
    rw [Option.map_some, Option.map_some, Option.map_some, if_neg (Nat.ne_of_lt hi), hback,
      Node.linkedIn_of_ne hnew, size_attached]

/-- `h` is `g` with all that a request adds: its operator at the end, below its inputs, and before a
special form the general one, which is left without edges. -/
structure Receives (g : Plan) (b : Builder) (v : Derived) (id : NodeId) (h : Plan) : Prop extends
    g.Grown b.inputs b.added id h where
  left : ∀ i, g.size ≤ i → i < id → h.get? i = some (.detached i v.op v.output)
  node : h.get? id = some (b.nodeAt v id)

end Plan

namespace Builder

variable {b : Builder} {op : Operator} {inputs : InputRelations}

theorem inputs_eq_nil : b.inputs = [] ↔ b.reads = [] := by
  cases b <;> simp [Builder.inputs, reads]

@[simp] theorem arity_form (b : Builder) (op : Operator) : (b.form op).arity = op.arity := by
  unfold form
  split <;> rfl

theorem inputs_nodeAt (b : Builder) (v : Derived) (id : NodeId) :
    (b.nodeAt v id).inputs = .seated v.op.arity b.reads := by
  rw [nodeAt, arity_form]

theorem kind_form_eq_create : (b.form op).kind = .create ↔ op.kind = .create := by
  unfold form
  split <;> simp [Operator.kind]

theorem placesOutput_form (b : Builder) (op : Operator) :
    (b.form op).kind.placesOutput = op.kind.placesOutput := by
  unfold form
  split <;> rfl

/-- A special form refers to the columns of the general one. -/
theorem current_form (h : op.Current inputs) : (b.form op).Current inputs := by
  unfold form
  split <;> exact h

theorem kind_ne_revealJoin (b : Builder) : b.kind ≠ .revealJoin := by cases b <;> nofun

theorem kind_form_ne_revealJoin (h : op.kind = b.kind) : (b.form op).kind ≠ .revealJoin := by
  unfold form
  split
  · nofun
  · nofun
  · rw [h]
    exact b.kind_ne_revealJoin

section Yields

variable {rels : List Relation} {v : Derived} {id : NodeId}

theorem Yields.ids_nodeAt (hy : b.Yields rels v) : (b.nodeAt v id).inputs.ids = b.reads := by
  rw [inputs_nodeAt]
  by_cases hk : b.kind = .create
  · rw [hy.source.mp hk, Operator.arity, hy.kind, hk]
    rfl
  · exact Inputs.ids_seated (hy.suits hk).seats

/-- The new node reads what its operator was derived from. -/
theorem Yields.read_nodeAt {f : NodeId → Option Relation} (hy : b.Yields rels v)
    (hf : b.reads.map f = rels.map some) : (b.nodeAt v id).inputs.read f = v.op.arity.arrange rels := by
  rw [inputs_nodeAt]
  by_cases hk : b.kind = .create
  · have hrels : rels = [] := by simpa [hy.source.mp hk] using hf.symm
    rw [hy.source.mp hk, hrels, Operator.arity, hy.kind, hk]
    rfl
  · exact Inputs.read_seated (hy.suits hk).seats hf

/-- A general form refers to no helpers. -/
theorem Yields.helpers (hy : b.Yields rels v) : v.op.helpers = [] := by
  by_cases hk : b.kind = .create
  · rw [Operator.eq_create_of_kind (hy.kind.trans hk)]
    rfl
  · exact (hy.suits hk).helpers

theorem Yields.current (hy : b.Yields rels v) (hr : ∀ r ∈ rels, r.WellFormed) :
    v.op.Current (v.op.arity.arrange rels) := by
  by_cases hk : b.kind = .create
  · rw [Operator.eq_create_of_kind (hy.kind.trans hk)]
    trivial
  · exact (hy.suits hk).current hr

/-- What a request refers to is what a look-up finds. -/
theorem Yields.refresh_form (hy : b.Yields rels v) (hr : ∀ r ∈ rels, r.WellFormed) :
    (b.form v.op).refresh (v.op.arity.arrange rels) = ⟨b.form v.op, .ok ()⟩ :=
  Operator.refresh_eq_self (kind_form_ne_revealJoin hy.kind) (current_form (hy.current hr))

end Yields

end Builder

namespace Plan

variable {g h : Plan} {rels : List Relation} {b : Builder} {v : Derived} {id : NodeId}

/-- The nodes of a plan say whether it has all that a request adds. -/
theorem receives_of_nodes (hy : b.Yields rels v) (hsize : h.size = g.size + b.added)
    (hlast : id + 1 = h.size) (hin : ∀ p ∈ b.inputs, p < g.size)
    (hkept : ∀ i < g.size, h.get? i =
      (g.get? i).map fun n => if i ∈ b.inputs then n.withChild id else n)
    (hleft : ∀ i, g.size ≤ i → i < id → h.get? i = some (.detached i v.op v.output))
    (hnode : h.get? id = some (b.nodeAt v id))
    (hroots : h.roots = if b.inputs = [] then g.roots.insert id else g.roots) :
    g.Receives b v id h where
  size := hsize
  last := hlast
  known := hin
  kept := hkept
  spare := fun i hge hlt => by
    refine ⟨_, hleft i hge hlt, ⟨rfl, rfl⟩, fun hk => ?_⟩
    -- a source has no general form before it
    have hhelpers : b.helpers = [] := Builder.helpers_of_create (hy.kind.symm.trans hk)
    rw [Builder.added_eq_one_iff.mpr hhelpers] at hsize
    have hid : id = g.size := Nat.succ.inj (hlast.trans hsize)
    exact absurd hlt (Nat.not_lt.mpr (hid ▸ hge))
  placed := by
    refine ⟨_, hnode, rfl, fun p => IdSet.mem_ofList, ?_⟩
    show (b.form v.op).kind = .create ↔ _
    rw [Builder.kind_form_eq_create, hy.kind, hy.source, Builder.inputs_eq_nil]
  roots := hroots
  left := hleft
  node := hnode

/-- A source stands at the end without edges, and is a root. -/
theorem receives_pushed (hy : b.Yields rels v) (hk : b.kind = .create) :
    g.Receives b v g.size { g.push v.op v.output with roots := g.roots.insert g.size } := by
  have hhelpers : b.helpers = [] := Builder.helpers_of_create hk
  have hreads : b.reads = [] := hy.source.mp hk
  have hinputs : b.inputs = [] := Builder.inputs_eq_nil.mpr hreads
  have hget : ∀ i, Plan.get? { g.push v.op v.output with roots := g.roots.insert g.size } i =
      if i = g.size then some (.detached g.size v.op v.output) else g.get? i :=
    fun i => get?_push g v.op v.output i
  refine receives_of_nodes hy ?_ ?_ (by simp [hinputs]) (fun i hi => ?_) (fun i hge hlt => ?_) ?_ ?_
  · exact (size_push g v.op v.output).trans (by rw [Builder.added_eq_one_iff.mpr hhelpers])
  · exact (size_push g v.op v.output).symm
  · rw [hget, if_neg (Nat.ne_of_lt hi), hinputs]
    simp
  · exact absurd hlt (Nat.not_lt.mpr hge)
  · have hunary : v.op.arity = .unary := by rw [Operator.arity, hy.kind, hk]; rfl
    rw [hget, if_pos rfl, Builder.nodeAt, Builder.form_of_helpers hhelpers, hinputs, hreads, hunary,
      Node.detached, hunary]
    rfl
  · rw [if_pos hinputs]

theorem receives_attached (hy : b.Yields rels v) (hin : ∀ p ∈ b.reads, p < g.size)
    (hk : b.kind ≠ .create) (hh : b.helpers = []) :
    g.Receives b v g.size (g.attached b.reads v) := by
  have hinputs : b.inputs = b.reads := Builder.inputs_of_helpers hh
  have hseats : b.reads.foldl Inputs.attach (.vacant v.op.arity) = .seated v.op.arity b.reads := by
    rw [← List.append_nil b.reads, Inputs.foldl_attach_vacant (hy.suits hk).seats fun _ => rfl,
      List.append_nil]
  refine receives_of_nodes hy ?_ ?_ (hinputs ▸ hin) (fun i hi => ?_) ?_ ?_ ?_
  · rw [size_attached, Builder.added_eq_one_iff.mpr hh]
  · rw [size_attached]
  · rw [get?_attached hi, hinputs]
  · exact fun i hge hlt => absurd hlt (Nat.not_lt.mpr hge)
  · rw [get?_attached_new hin, Builder.nodeAt, Builder.form_of_helpers hh, hseats, hinputs]
    rfl
  · rw [roots_attached, if_neg fun he => hk (hy.source.mpr (Builder.inputs_eq_nil.mp he))]

/-- A request for a special form leaves the general one behind. -/
theorem receives_planted (hg : g.Mutual) {n : Node} (hy : b.Yields rels v)
    (hn : (g.attached b.reads v).get? g.size = some n) (hin : ∀ p ∈ b.inputs, p < g.size)
    (hk : b.kind ≠ .create) (hmpc : b.kind.isMpc = false) (hary : v.op.arity ≠ .nary)
    (ha : b.added = 2) :
    g.Receives b v (g.size + 1) ((g.attached b.reads v).planted g.size n (b.form v.op) b.inputs) := by
  have hreads : ∀ p ∈ b.reads, p < g.size := fun p hp => hin p (by simp [b.inputs_eq, hp])
  have hfresh : ¬ (g.attached b.reads v).size ∈ b.inputs := fun hp => by
    have hlt := hin _ hp
    rw [size_attached] at hlt
    exact Nat.not_succ_lt_self hlt
  have hseats : b.inputs.foldl Inputs.attach (.vacant v.op.arity) = .seated v.op.arity b.reads := by
    rw [b.inputs_eq]
    exact Inputs.foldl_attach_vacant (hy.suits hk).seats fun h => absurd h hary
  have hflag : n.isMpc = false ∧ n.output = v.output := by
    rw [get?_attached_new hreads] at hn
    cases hn
    exact ⟨(congrArg Kind.isMpc hy.kind).trans hmpc, rfl⟩
  refine receives_of_nodes hy ?_ ?_ hin (fun i hi => get?_planted_above hg hi) (fun i hge hlt => ?_)
    ?_ ?_
  · rw [size_planted, size_attached, ha]
  · rw [size_planted, size_attached]
  · obtain rfl : i = g.size := Nat.le_antisymm (Nat.le_of_lt_succ hlt) hge
    rw [b.inputs_eq] at hin ⊢
    exact get?_planted_old hin hn
  · have hnew := @get?_planted_new _ g.size _ n (b.form v.op) hfresh
    rw [size_attached, hflag.1, hflag.2, Builder.arity_form, hseats] at hnew
    rw [hnew, Builder.nodeAt, Builder.arity_form]
    rfl
  · rw [roots_planted, roots_attached,
      if_neg fun he => hk (hy.source.mpr (Builder.inputs_eq_nil.mp he))]

end Plan

namespace Edit
open Plan

variable {g : Plan} {rels : List Relation} {b : Builder} {v : Derived} {op : Operator} {n : Node}
  {old p : NodeId}

theorem Produce.filterMap_eq {inputs : List NodeId} {rels : List Relation} {g : Plan}
    (h : Produce inputs rels g) : inputs.filterMap g.output? = rels := by
  have hmap : inputs.filterMap g.output? = (inputs.map g.output?).filterMap id := by
    rw [List.filterMap_map]
    rfl
  have hrels : inputs.map g.output? = rels.map some := h
  rw [hmap, hrels, List.filterMap_map]
  exact List.filterMap_some

theorem produce_of_relations {ids : List NodeId}
    (h : List.Forall₂ (fun p r => g.relationOf p = .ok r) ids rels) : Produce ids rels g := by
  induction h with
  | nil => rfl
  | cons hp _ ih =>
    rw [Produce, List.map_cons, List.map_cons, relationOf_eq_ok.mp hp]
    exact congrArg _ ih

/-- A node without children hands nothing on: the special form only has to find its own columns. -/
theorem substitute_childless {ps : List NodeId} {R : Error → Plan → Prop} (hg : g.Mutual)
    (hn : g.get? old = some n) (hkids : n.children = ∅) (hps : ∀ p ∈ ps, p < g.size)
    (hcur : op.refresh ((g.planted old n op ps).operatorInputs g.size) = ⟨op, .ok ()⟩) :
    Meets (· = g) (Specialize.substitute old op ps)
      (fun id h => h = g.planted old n op ps ∧ id = g.size) R := by
  have hnew : ¬ g.size ∈ ps := fun hp => Nat.lt_irrefl _ (hps _ hp)
  refine substitute_planted hg hn hps ?_
  rw [hkids]
  refine Meets.bind (M := fun _ h => h = g.planted old n op ps) (Meets.pure fun _ hh => hh) fun _ => ?_
  refine Meets.bind ((Meets.refreshColumns_same (get?_planted_new hnew) hcur).mono (fun _ hh => hh)
    (fun _ _ hh => hh) fun _ _ hh => hh.elim) fun _ => ?_
  refine reportSpecialized_meets (fun h hh => ?_) old _
  rw [hh, size_planted]
  exact Nat.lt_succ_self _

theorem require_known {R : Error → Plan → Prop} (hp : p < g.size) :
    Meets (· = g) (require p) (fun _ h => h = g) R := by
  refine Meets.require (fun h hh _ => hh) ?_
  rintro h rfl hlt
  exact absurd hp hlt

/-- A special form that reads what the general one was just derived from is never refused. -/
theorem substitute_receives {R : Error → Plan → Prop} (hg : g.Linked) (hy : b.Yields rels v)
    (hprod : Produce b.reads rels g) (hin : ∀ p ∈ b.inputs, p < g.size) (hk : b.kind ≠ .create)
    (hmpc : b.kind.isMpc = false) (hary : v.op.arity ≠ .nary) (ha : b.added = 2) :
    Meets (· = g.attached b.reads v) (Specialize.substitute g.size (b.form v.op) b.inputs)
      (g.Receives b v) R := by
  have hreads : ∀ p ∈ b.reads, p < g.size := fun p hp => hprod.lt_size hp
  have hnode := get?_attached_new (d := v) hreads
  have hreceives := receives_planted hg.edges hy hnode hin hk hmpc hary ha
  have hps : ∀ p ∈ b.inputs, p < (g.attached b.reads v).size := fun p hp => by
    rw [size_attached]
    exact Nat.lt_succ_of_lt (hin p hp)
  refine (substitute_childless (hg.edges.attached hreads) hnode rfl hps ?_).mono (fun _ hh => hh) ?_
    fun _ _ hh => hh
  · -- the helpers find no place, so the form reads what the general one reads
    have hsame : b.reads.map
        ((g.attached b.reads v).planted g.size _ (b.form v.op) b.inputs).output? = rels.map some :=
      (List.map_congr_left fun p hp => hreceives.output? (hreads p hp)).trans hprod
    rw [size_attached, operatorInputs_eq hreceives.node, hy.read_nodeAt hsame]
    exact hy.refresh_form fun r hr => hprod.wellFormed hg hr
  · rintro id h ⟨rfl, rfl⟩
    rw [size_attached]
    exact hreceives

end Edit

namespace Builder
open Edit

variable {g : Plan} {b : Builder} {v : Derived}

/-- What was derived is put into the plan, and this is never refused. -/
theorem carryOut_receives {R : Error → Plan → Prop} (hg : g.Linked)
    (hv : b.derive g.relationOf = .ok v) : Meets (· = g) (b.carryOut v) (g.Receives b v) R := by
  obtain ⟨hhelpers, hv⟩ := derive_eq_ok.mp hv
  obtain ⟨rels, hrels, hy⟩ := yields_of_deriveFrom hv
  have hprod := produce_of_relations hrels
  have hreads : ∀ p ∈ b.reads, p < g.size := fun p hp => hprod.lt_size hp
  have hin : ∀ p ∈ b.inputs, p < g.size := by
    intro p hp
    rw [b.inputs_eq] at hp
    rcases List.mem_append.mp hp with hp | hp
    · exact hreads p hp
    · obtain ⟨r, hr⟩ := hhelpers p hp
      obtain ⟨n, hn, _⟩ := Option.map_eq_some_iff.mp (Plan.relationOf_eq_ok.mp hr)
      exact Plan.lt_size hn
  have hattach : b.kind ≠ .create → b.helpers = [] →
      Meets (· = g) (Build.attach b.reads v) (g.Receives b v) R := by
    intro hk hh
    refine (attach_exact hreads).mono (fun _ hh => hh) ?_ fun _ _ hh => hh
    rintro id h ⟨rfl, rfl⟩
    exact Plan.receives_attached hy hreads hk hh
  cases b with
  | create name columns holders =>
    refine Meets.bind (M := fun id h => id = g.size ∧ h = g.push v.op v.output) (Meets.addNode ?_)
      fun id => ?_
    · rintro h rfl
      exact ⟨rfl, rfl⟩
    refine Meets.bind (M := fun _ => g.Receives (.create name columns holders) v id)
      (Meets.addRoot ?_ ?_) fun _ => Meets.pure fun _ hh => hh
    · rintro h ⟨rfl, rfl⟩ _
      exact Plan.receives_pushed hy rfl
    · rintro h ⟨rfl, rfl⟩ hlt
      exact absurd (by simp) hlt
  | indexAggregate input name groupBy folded aggregator result eqFlags sortedKeys =>
    obtain ⟨spec, hop⟩ : ∃ spec, v.op = .aggregate spec := Operator.eq_aggregate_of_kind hy.kind
    have hnode := Plan.get?_attached_new (d := v) hreads
    have hform := substitute_receives (R := R) hg hy hprod hin nofun rfl (by rw [hop]; nofun) rfl
    refine Meets.bind (attach_exact hreads) fun id => Meets.of_each ?_
    rintro h ⟨rfl, rfl⟩
    have hlt : ∀ p ∈ [input, eqFlags, sortedKeys], p < (g.attached [input] v).size := fun p hp => by
      rw [Plan.size_attached]
      exact Nat.lt_succ_of_lt (hin p hp)
    have hgeneral : (g.attached [input] v).generalAggregation g.size = .ok ⟨spec, input⟩ :=
      Plan.generalAggregation_of_node hnode hop (by rw [hop]; rfl)
    refine Meets.bind (Meets.ask_known hgeneral) fun agg => Meets.of_fact fun hagg => ?_
    subst hagg
    refine Meets.bind (require_known (hlt eqFlags (by simp))) fun _ => ?_
    refine Meets.bind (require_known (hlt sortedKeys (by simp))) fun _ => ?_
    rw [hop] at hform
    exact hform
  | indexJoin left right name leftKeys rightKeys aligner =>
    obtain ⟨keys, hop⟩ : ∃ keys, v.op = .join keys := Operator.eq_join_of_kind hy.kind
    have hnode := Plan.get?_attached_new (d := v) hreads
    have hform := substitute_receives (R := R) hg hy hprod hin nofun rfl (by rw [hop]; nofun) rfl
    refine Meets.bind (attach_exact hreads) fun id => Meets.of_each ?_
    rintro h ⟨rfl, rfl⟩
    have hgeneral : (g.attached [left, right] v).generalJoin g.size = .ok ⟨keys, left, right⟩ :=
      Plan.generalJoin_of_node hnode hop (by rw [hop]; rfl)
    refine Meets.bind (Meets.ask_known hgeneral) fun join => Meets.of_fact fun hjoin => ?_
    subst hjoin
    refine Meets.bind (require_known ?_) fun _ => ?_
    · rw [Plan.size_attached]
      exact Nat.lt_succ_of_lt (hin aligner (by simp [Builder.inputs]))
    rw [hop] at hform
    exact hform
  | _ => exact hattach nofun rfl

/-- A request that finds an operator for its inputs is granted, and the plan receives what was found. Any
other is refused and leaves the plan alone. -/
theorem run_receives (hg : g.Linked) (b : Builder) : Meets (· = g) b.run
    (fun id h => ∃ v, b.derive g.relationOf = .ok v ∧ g.Receives b v id h)
    fun e h => h = g ∧ b.derive g.relationOf = .error e := by
  have hrun : Meets (· = g) (do let v ← settle (b.derive g.relationOf); b.carryOut v)
      (fun id h => ∃ v, b.derive g.relationOf = .ok v ∧ g.Receives b v id h)
      fun e h => h = g ∧ b.derive g.relationOf = .error e := by
    refine Meets.bind (M := fun v h => h = g ∧ b.derive g.relationOf = .ok v)
      (Meets.settle (fun v hv h hh => ⟨hh, hv⟩) fun e he h hh => ⟨hh, he⟩) fun v => ?_
    refine Meets.of_fact fun hv => (carryOut_receives hg hv).mono (fun _ hh => hh)
      (fun id h hh => ⟨v, hv, hh⟩) fun _ _ hh => hh
  intro d hd
  have hd' := hrun d hd
  rwa [← hd, ← Build.apply_run, hd] at hd'

end Builder

namespace Plan.Receives

variable {g h : Plan} {b : Builder} {v : Derived} {id : NodeId} {rels : List Relation}

theorem eq_size (hr : g.Receives b v id h) (hh : b.helpers = []) : id = g.size := by
  have hsize := hr.size
  rw [Builder.added_eq_one_iff.mpr hh, ← hr.last] at hsize
  exact Nat.succ.inj hsize

theorem produce (hr : g.Receives b v id h) (hprod : Edit.Produce b.reads rels g) :
    Edit.Produce b.reads rels h :=
  (List.map_congr_left fun _ hp => hr.output? (hprod.lt_size hp)).trans hprod

/-- What is said of a node and of the relations it reads goes on to hold of the nodes that were there. So
only the new ones have to be looked at. -/
theorem forall_nodes {J : (NodeId → Option Relation) → NodeId → Node → Prop} (hr : g.Receives b v id h)
    (hg : g.Linked) (hchild : ∀ f i n c, J f i n → J f i (n.withChild c))
    (hread : ∀ f f' i n, (∀ p ∈ n.inputs.ids, f' p = f p) → J f i n → J f' i n)
    (hold : ∀ i n, g.get? i = some n → J g.output? i n)
    (hleft : ∀ i, g.size ≤ i → i < id → J h.output? i (.detached i v.op v.output))
    (hnode : J h.output? id (b.nodeAt v id)) (i : NodeId) (n : Node) (hn : h.get? i = some n) :
    J h.output? i n := by
  rcases Nat.lt_or_ge i g.size with hlt | hge
  · rw [hr.kept i hlt] at hn
    obtain ⟨m, hm, rfl⟩ := Option.map_eq_some_iff.mp hn
    have hsame : J h.output? i m :=
      hread _ _ i m (fun p hp => hr.output? (hg.named_lt hm hp)) (hold i m hm)
    split
    · exact hchild _ i m id hsame
    · exact hsame
  rcases Nat.lt_or_ge i id with hlt | hid
  · rw [hr.left i hge hlt] at hn
    cases hn
    exact hleft i hge hlt
  · have hi : i = id := by
      have hlast : i < h.size := lt_size hn
      rw [← hr.last] at hlast
      exact Nat.le_antisymm (Nat.le_of_lt_succ hlast) hid
    subst hi
    rw [hr.node] at hn
    cases hn
    exact hnode

end Plan.Receives

/-- What holds of a plan, and goes on to hold when the plan receives what a request adds, holds after
the request, granted or refused. -/
theorem Call.received_after {I : Plan → Prop} {d : Draft} {b : Builder} (hl : d.plan.Linked)
    (hd : I d.plan) (h : ∀ v id g', b.derive d.plan.relationOf = .ok v → d.plan.Receives b v id g' → I g') :
    I ((Call.build b).after d).plan := by
  refine Edit.Meets.after_any (P := (· = d.plan)) ?_ rfl
  refine Edit.Meets.bind ((b.run_receives hl).mono (fun _ hh => hh) ?_ ?_) fun _ =>
    Edit.Meets.pure fun _ hh => hh
  · rintro id g' ⟨v, hv, hr⟩
    exact h v id g' hv hr
  · rintro e g' ⟨rfl, _⟩
    exact hd

end PartyPlan
