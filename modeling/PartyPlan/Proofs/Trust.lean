import PartyPlan.Proofs.Sortable

/-! Where trust comes from. A column may be trusted to some parties because a source declares it so, and
an operator hands a column on with its trust only where it leaves the column alone. So nothing that is
derived is trusted to anybody, and every trusted column can be followed back, from input to input, to the
declaration it is a copy of. -/
namespace PartyPlan

def Column.spec (c : Column) : ColumnSpec := ⟨c.name, c.type, c.colluders⟩

theorem Column.colluders_of_spec {c c' : Column} (h : c.spec = c'.spec) : c.colluders = c'.colluders :=
  congrArg ColumnSpec.colluders h

theorem Relation.getElem?_stamped {name : String} {columns : List Column} {holders : PartySet} {k : Nat}
    {c : Column} (h : (stamped name columns holders).columns[k]? = some c) :
    ∃ c', columns[k]? = some c' ∧ c = c'.placed name k := by
  simp only [stamped, List.getElem?_mapIdx, Option.map_eq_some_iff] at h
  obtain ⟨c', hc', rfl⟩ := h
  exact ⟨c', hc', rfl⟩

/-- Column `k` of the output is column `j` of the single input, which the operator does not touch. -/
def Operator.Copies (k j : Nat) : Operator → Prop
  | shuffle | persist | store | opening | closing | send => k = j
  | index _ => k = j + 1
  | filter condition => k = j ∧ condition.column.index ≠ j
  | multiply spec | divide spec =>
    k = j ∧ spec.target.index ≠ k ∧ ∀ c ∈ spec.operands.filterMap Operand.column?, c.index ≠ j
  | _ => False

theorem Operator.Copies.arity {op : Operator} {k j : Nat} (h : op.Copies k j) : op.arity = .unary := by
  cases op with
  | join | indexJoin | revealJoin | hybridJoin | concat => exact h.elim
  | _ => rfl

def Kind.clears : List Kind :=
  [.aggregate, .indexAggregate, .project, .distinct, .sortBy, .compareNeighbours, .join, .indexJoin,
    .concat]

theorem Operator.Copies.kind_not_mem {op : Operator} {k j : Nat} (h : op.Copies k j) :
    ¬ op.kind ∈ Kind.clears := by
  cases op with
  | shuffle | persist | store | opening | closing | send | index | filter | multiply | divide =>
    simp [Operator.kind, Kind.clears]
  | _ => exact h.elim

namespace Derived

variable {r : Relation} {v : Derived}

def Untrusted (v : Derived) : Prop := ∀ c ∈ v.output.columns, c.colluders = ∅

/-- Each trusted column of the output is an untouched column of the input. -/
def HandsOn (r : Relation) (v : Derived) : Prop :=
  ∀ k c, v.output.columns[k]? = some c → c.colluders ≠ ∅ →
    ∃ j c', r.columns[j]? = some c' ∧ v.op.Copies k j ∧ c.spec = c'.spec

theorem untrusted_of_stamped {op : Operator} {name : String} {columns : List Column} {holders : PartySet}
    (h : ∀ c ∈ columns, c.colluders = ∅) : Untrusted ⟨op, .stamped name columns holders⟩ := by
  intro c hc
  obtain ⟨k, hk⟩ := List.getElem?_of_mem hc
  obtain ⟨c', hc', rfl⟩ := Relation.getElem?_stamped hk
  exact h c' (List.mem_of_getElem? hc')

end Derived

namespace Derive

variable {r : Relation} {v : Derived} {columns columns' : List Column} {k : Nat} {c : Column}

theorem colluders_of_mem_clearedAll (h : c ∈ clearedAll columns) : c.colluders = ∅ := by
  obtain ⟨b, _, rfl⟩ := List.mem_map.mp h
  rfl

/-- A column that is still trusted after another was cleared was not the one. -/
theorem trusted_of_clearAt {b : Column} (h : clearAt columns b = .ok columns')
    (hc : columns'[k]? = some c) (ht : c.colluders ≠ ∅) : columns[k]? = some c ∧ b.index ≠ k := by
  unfold clearAt at h
  split at h
  · cases h
    rw [List.getElem?_set] at hc
    split at hc
    · cases hc
      exact absurd rfl ht
    · next hk => exact ⟨hc, hk⟩
  · cases h

theorem trusted_of_clearAll {cs : List Column} (h : cs.foldlM clearAt columns = .ok columns')
    (hc : columns'[k]? = some c) (ht : c.colluders ≠ ∅) :
    columns[k]? = some c ∧ ∀ b ∈ cs, b.index ≠ k := by
  induction cs generalizing columns with
  | nil =>
    cases h
    exact ⟨hc, nofun⟩
  | cons b cs ih =>
    rw [List.foldlM_cons] at h
    obtain ⟨middle, hb, h⟩ := except_bind_eq_ok.mp h
    obtain ⟨hmiddle, hrest⟩ := ih h
    obtain ⟨hfirst, hne⟩ := trusted_of_clearAt hb hmiddle ht
    refine ⟨hfirst, fun a ha => ?_⟩
    rcases List.mem_cons.mp ha with rfl | ha
    · exact hne
    · exact hrest a ha

/-- The target is a column that was cleared, or a new one that is trusted to nobody. -/
theorem trusted_of_arithmeticColumns {name target : String} {operands : List Operand} {place : Nat}
    (h : arithmeticColumns r name target operands = .ok (columns, place)) (hc : columns[k]? = some c)
    (ht : c.colluders ≠ ∅) :
    r.columns[k]? = some c ∧ place ≠ k ∧
      ∀ b ∈ operands.filterMap Operand.column?, b.index ≠ k := by
  unfold arithmeticColumns at h
  obtain ⟨middle, hmiddle, h⟩ := except_bind_eq_ok.mp h
  split at h
  · next existing _ =>
    split at h
    · obtain ⟨last, hlast, h⟩ := except_bind_eq_ok.mp h
      cases h
      obtain ⟨hm, hne⟩ := trusted_of_clearAt hlast hc ht
      obtain ⟨hr, hothers⟩ := trusted_of_clearAll hmiddle hm ht
      exact ⟨hr, hne, hothers⟩
    · cases h
  · cases h
    rw [List.getElem?_append] at hc
    split at hc
    · next hlt =>
      obtain ⟨hr, hothers⟩ := trusted_of_clearAll hmiddle hc ht
      exact ⟨hr, Nat.ne_of_gt hlt, hothers⟩
    · have hlast := List.mem_of_getElem? hc
      rw [List.mem_singleton] at hlast
      exact absurd (congrArg Column.colluders hlast) ht

theorem arithmetic_handsOn {op : Arithmetic → Operator} {name target : String} {specs : List OperandSpec}
    (hop : ∀ spec k j, (op spec).Copies k j ↔ (Operator.multiply spec).Copies k j)
    (h : arithmetic op r name target specs = .ok v) : v.HandsOn r := by
  obtain ⟨operands, columns, place, column, _, hcols, hplace, rfl⟩ := arithmetic_result h
  intro k c hc ht
  obtain ⟨c', hc', rfl⟩ := Relation.getElem?_stamped hc
  obtain ⟨hr, hne, hothers⟩ := trusted_of_arithmeticColumns hcols hc' ht
  have hindex : column.index = place := (Relation.stamped_wellFormed _ _ _ place column hplace).1
  exact ⟨k, c', hr, (hop _ _ _).mpr ⟨rfl, hindex ▸ hne, hothers⟩, rfl⟩

theorem filter_handsOn {name column expression : String} {comparison : Comparison}
    (h : filter r name column comparison expression = .ok v) : v.HandsOn r := by
  obtain ⟨b, columns, _, hcols, rfl⟩ := filter_result h
  intro k c hc ht
  obtain ⟨c', hc', rfl⟩ := Relation.getElem?_stamped hc
  obtain ⟨hr, hne⟩ := trusted_of_clearAt hcols hc' ht
  exact ⟨k, c', hr, ⟨rfl, hne⟩, rfl⟩

theorem index_handsOn {name column : String} (h : index r name column = .ok v) : v.HandsOn r := by
  obtain rfl := index_result h
  intro k c hc ht
  obtain ⟨c', hc', rfl⟩ := Relation.getElem?_stamped hc
  cases k with
  | zero =>
    cases hc'
    exact absurd rfl ht
  | succ j => exact ⟨j, c', hc', rfl, rfl⟩

theorem handsOn_of_renamed {op : Operator} {name : String} {holders : PartySet}
    (hop : ∀ k, op.Copies k k) : Derived.HandsOn r ⟨op, (r.renamed name).heldBy holders⟩ := by
  intro k c hc _
  obtain ⟨c', hc', rfl⟩ := Relation.getElem?_stamped hc
  exact ⟨k, c', hc', hop k, rfl⟩

theorem create_declares {name : String} {specs : List ColumnSpec} {holders : PartySet}
    (h : create name specs holders = .ok v) :
    v.output.name = name ∧ v.output.columns.map Column.spec = specs := by
  obtain rfl := create_result h
  refine ⟨rfl, ?_⟩
  refine List.ext_getElem? fun k => ?_
  simp only [Relation.stamped, List.getElem?_map, List.getElem?_mapIdx, Option.map_map]
  cases specs[k]? <;> rfl

/-! Operators that put together their output from what they read clear all of it. -/

theorem aggregate_untrusted {name folded result : String} {groupBy : List String} {aggregator : Aggregator}
    (h : aggregate r name groupBy folded aggregator result = .ok v) : v.Untrusted := by
  obtain ⟨cs, c, _, _, rfl⟩ := aggregate_result h
  refine Derived.untrusted_of_stamped fun a ha => ?_
  rcases List.mem_append.mp ha with ha | ha
  · exact colluders_of_mem_clearedAll ha
  · rw [List.mem_singleton.mp ha]
    rfl

theorem join_untrusted {left right : Relation} {name : String} {leftKeys rightKeys : List String}
    (h : join left right name leftKeys rightKeys = .ok v) : v.Untrusted := by
  obtain ⟨ls, rs, _, _, rfl⟩ := join_result h
  refine Derived.untrusted_of_stamped fun a ha => ?_
  rw [List.mem_append, List.mem_append] at ha
  rcases ha with (ha | ha) | ha <;> exact colluders_of_mem_clearedAll ha

/-- New names leave columns that are trusted to nobody as they are. -/
theorem concat_untrusted {inputs : List Relation} {name : String} {names : Option (List String)}
    (h : concat inputs name names = .ok v) : v.Untrusted := by
  obtain rfl := concat_result h
  refine Derived.untrusted_of_stamped fun a ha => ?_
  cases names with
  | none => exact colluders_of_mem_clearedAll ha
  | some names =>
    rw [Option.elim_some, ← List.map_uncurry_zip_eq_zipWith] at ha
    obtain ⟨⟨b, name⟩, hb, rfl⟩ := List.mem_map.mp ha
    have hcleared : b.colluders = ∅ := colluders_of_mem_clearedAll (List.of_mem_zip hb).1
    exact hcleared

end Derive

namespace Builder

variable {out : NodeId → Except Error Relation} {b : Builder} {v : Derived}

/-- What a request derives from its inputs is trusted to nobody, but for what an operator of one input
hands on. -/
theorem trust_of_deriveFrom (h : b.deriveFrom out = .ok v) (hk : b.kind ≠ .create) :
    v.Untrusted ∨ ∃ input r, b.reads = [input] ∧ b.helpers = [] ∧ out input = .ok r ∧ v.HandsOn r := by
  have cleared : ∀ {input : NodeId} {f : Relation → Except Error Derived}, (out input >>= f) = .ok v →
      (∀ r, f r = .ok v → v.Untrusted) → v.Untrusted := by
    intro input f h hf
    obtain ⟨r, _, h⟩ := except_bind_eq_ok.mp h
    exact hf r h
  have handed : ∀ {b : Builder} {input : NodeId} {f : Relation → Except Error Derived},
      (out input >>= f) = .ok v → b.reads = [input] → b.helpers = [] →
      (∀ r, f r = .ok v → v.HandsOn r) →
      ∃ input r, b.reads = [input] ∧ b.helpers = [] ∧ out input = .ok r ∧ v.HandsOn r := by
    intro b input f h hreads hhelpers hf
    obtain ⟨r, hr, h⟩ := except_bind_eq_ok.mp h
    exact ⟨input, r, hreads, hhelpers, hr, hf r h⟩
  cases b with
  | create => exact absurd rfl hk
  | aggregate | indexAggregate => exact .inl (cleared h fun r => Derive.aggregate_untrusted)
  | sortBy =>
    refine .inl (cleared h fun r hr => ?_)
    obtain ⟨c, _, rfl⟩ := Derive.sortBy_result hr
    exact Derived.untrusted_of_stamped fun a => Derive.colluders_of_mem_clearedAll
  | project =>
    refine .inl (cleared h fun r hr => ?_)
    obtain ⟨cs, _, rfl⟩ := Derive.project_result hr
    exact Derived.untrusted_of_stamped fun a => Derive.colluders_of_mem_clearedAll
  | distinct =>
    refine .inl (cleared h fun r hr => ?_)
    obtain ⟨cs, _, rfl⟩ := Derive.distinct_result hr
    exact Derived.untrusted_of_stamped fun a => Derive.colluders_of_mem_clearedAll
  | compareNeighbours =>
    refine .inl (cleared h fun r hr => ?_)
    obtain ⟨c, _, rfl⟩ := Derive.compareNeighbours_result hr
    exact Derived.untrusted_of_stamped fun a ha => List.mem_singleton.mp ha ▸ rfl
  | join | indexJoin =>
    obtain ⟨l, r, _, _, h⟩ := join_of_deriveFrom h
    exact .inl (Derive.join_untrusted h)
  | concat =>
    obtain ⟨_, _, rels, _, h⟩ := concat_of_deriveFrom h
    exact .inl (Derive.concat_untrusted h)
  | multiply | divide =>
    exact .inr (handed h rfl rfl fun r => Derive.arithmetic_handsOn fun _ _ _ => .rfl)
  | filter => exact .inr (handed h rfl rfl fun r => Derive.filter_handsOn)
  | index => exact .inr (handed h rfl rfl fun r => Derive.index_handsOn)
  | shuffle | persist | store | closing | opening | send =>
    refine .inr (handed h rfl rfl fun r hr => ?_)
    cases hr
    exact Derive.handsOn_of_renamed fun _ => rfl

end Builder

/-- A node refers to columns its inputs have. A source is one that was declared, and whatever another node
has that is trusted to somebody is an untouched column of its only input. -/
structure Node.Accounted (declared : String → List ColumnSpec → Prop) (f : NodeId → Option Relation)
    (n : Node) : Prop where
  current : n.op.Current (n.inputs.read f)
  source : n.kind = .create → declared n.output.name (n.output.columns.map Column.spec)
  trust : n.kind ≠ .create → ∀ k c, n.output.columns[k]? = some c → c.colluders ≠ ∅ →
    ∃ p r j c', n.inputs = .unary (some p) ∧ (∀ q, q ∈ n.parents ↔ q = p) ∧ f p = some r ∧
      r.columns[j]? = some c' ∧ n.op.Copies k j ∧ c.spec = c'.spec

namespace Node.Accounted

variable {declared : String → List ColumnSpec → Prop} {f f' : NodeId → Option Relation} {n : Node}

theorem withChild (c : NodeId) (h : n.Accounted declared f) : (n.withChild c).Accounted declared f :=
  ⟨h.current, h.source, h.trust⟩

theorem heldBy (s : PartySet) (h : n.Accounted declared f) : (n.heldBy s).Accounted declared f :=
  ⟨h.current, h.source, h.trust⟩

/-- Only the names and columns of the inputs matter. -/
theorem congr (hf : ∀ p ∈ n.inputs.ids, (f' p).map Relation.schema = (f p).map Relation.schema)
    (h : n.Accounted declared f) : n.Accounted declared f' where
  current := by
    refine h.current.of_within (n.inputs.read_within fun p hp r' hr' => ?_)
    have hschema := hf p hp
    rw [hr', Option.map_some] at hschema
    exact Option.map_eq_some_iff.mp hschema.symm
  source := h.source
  trust := by
    intro hk k c hc ht
    obtain ⟨p, r, j, c', hinputs, hparents, hr, hc', hcopy, hspec⟩ := h.trust hk k c hc ht
    have hschema := hf p (by simp [hinputs, Inputs.ids])
    rw [hr, Option.map_some, Option.map_eq_some_iff] at hschema
    obtain ⟨r', hr', hsame⟩ := hschema
    have hcols : r'.columns = r.columns := congrArg Prod.snd hsame
    exact ⟨p, r', j, c', hinputs, hparents, hr', hcols ▸ hc', hcopy, hspec⟩

theorem detached {v : Derived} (i : NodeId) (hk : v.op.kind ≠ .create) (hv : v.Untrusted) :
    (Node.detached i v.op v.output).Accounted declared f where
  current := by
    show v.op.Current ((Inputs.vacant v.op.arity).read f)
    rw [Inputs.read_vacant]
    exact v.op.current_of_none
  source := fun hc => absurd hc hk
  trust := fun _ _ c hc ht => absurd (hv c (List.mem_of_getElem? hc)) ht

end Node.Accounted

namespace Plan

variable {declared : String → List ColumnSpec → Prop} {g h : Plan} {b : Builder} {v : Derived}
  {i id : NodeId}

def Accounted (declared : String → List ColumnSpec → Prop) (g : Plan) : Prop :=
  ∀ i n, g.get? i = some n → n.Accounted declared g.output?

theorem Receives.accounted_node (hr : g.Receives b v id h) (hg : g.Linked)
    (hv : b.derive g.relationOf = .ok v)
    (hb : ∀ name columns holders, b = .create name columns holders → declared name columns) :
    (b.nodeAt v id).Accounted declared h.output? := by
  obtain ⟨_, hv⟩ := Builder.derive_eq_ok.mp hv
  obtain ⟨rels, hrels, hy⟩ := Builder.yields_of_deriveFrom hv
  have hkind : (b.nodeAt v id).kind = .create ↔ b.kind = .create := by
    rw [← hy.kind, ← Builder.kind_form_eq_create]
    rfl
  constructor
  case current =>
    have hprod := Edit.produce_of_relations hrels
    rw [hy.read_nodeAt (hr.produce hprod)]
    exact Builder.current_form (hy.current fun r hm => hprod.wellFormed hg hm)
  case source =>
    intro hk
    rw [hkind] at hk
    cases b with
    | create name columns holders =>
      obtain ⟨hname, hspecs⟩ := Derive.create_declares hv
      have hdeclared := hb name columns holders rfl
      rw [← hname, ← hspecs] at hdeclared
      exact hdeclared
    | _ => cases hk
  case trust =>
    intro hk k c hc ht
    rw [Ne, hkind] at hk
    rcases Builder.trust_of_deriveFrom hv hk with hnone | ⟨p, r, hreads, hhelpers, hp, hhands⟩
    · exact absurd (hnone c (List.mem_of_getElem? hc)) ht
    · obtain ⟨j, c', hc', hcopy, hspec⟩ := hhands k c hc ht
      have hunary : (b.nodeAt v id).inputs = .unary (some p) := by
        rw [Builder.inputs_nodeAt, hreads, hcopy.arity]
        rfl
      refine ⟨p, r, j, c', hunary, fun q => ?_, ?_, hc', ?_, hspec⟩
      · show q ∈ IdSet.ofList b.inputs ↔ q = p
        rw [IdSet.mem_ofList, b.inputs_eq, hreads, hhelpers]
        simp
      · have hout := relationOf_eq_ok.mp hp
        obtain ⟨m, hm, _⟩ := Option.map_eq_some_iff.mp hout
        rw [hr.output? (lt_size hm), hout]
      · show (b.form v.op).Copies k j
        rw [Builder.form_of_helpers hhelpers]
        exact hcopy

theorem Accounted.received (hacc : g.Accounted declared) (hg : g.Linked)
    (hv : b.derive g.relationOf = .ok v)
    (hb : ∀ name columns holders, b = .create name columns holders → declared name columns)
    (hr : g.Receives b v id h) : h.Accounted declared := by
  refine hr.forall_nodes (J := fun f _ n => n.Accounted declared f) hg ?_ ?_ hacc ?_
    (hr.accounted_node hg hv hb)
  · exact fun _ _ _ c hn => hn.withChild c
  · exact fun _ _ _ _ hf hn => hn.congr fun p hp => congrArg _ (hf p hp)
  · intro i hge hlt
    -- only a special form leaves a node behind, and what it starts from is trusted to nobody
    have hhelpers : b.helpers ≠ [] := fun hh => Nat.not_lt.mpr hge (hr.eq_size hh ▸ hlt)
    obtain ⟨_, hv⟩ := Builder.derive_eq_ok.mp hv
    obtain ⟨rels, _, hy⟩ := Builder.yields_of_deriveFrom hv
    have hk : b.kind ≠ .create := fun hk => hhelpers (Builder.helpers_of_create hk)
    rcases Builder.trust_of_deriveFrom hv hk with hnone | ⟨_, _, _, hh, _⟩
    · exact .detached i (hy.kind ▸ hk) hnone
    · exact absurd hh hhelpers

theorem Accounted.heldBy (hacc : g.Accounted declared) (id : NodeId) (s : PartySet) :
    (g.update id (.heldBy s)).Accounted declared :=
  forall_nodes_heldBy (J := fun f _ n => n.Accounted declared f) (fun _ _ => rfl)
    (fun _ _ _ _ hf hn => hn.congr hf) (fun _ _ _ s hn => hn.heldBy s) hacc id s

def columnAt? (g : Plan) (place : NodeId × Nat) : Option Column :=
  (g.output? place.1).bind (·.columns[place.2]?)

/-- A column of a node is a copy of a column of its only input. The operator refers to columns of that
input, and to others than this one. -/
structure HandsOn (g : Plan) (source target : NodeId × Nat) : Prop where
  copies : ∃ n, g.get? target.1 = some n ∧ n.inputs = .unary (some source.1) ∧
    (∀ q, q ∈ n.parents ↔ q = source.1) ∧ n.op.Current (g.operatorInputs target.1) ∧
    n.op.Copies target.2 source.2
  same : ∃ c c', g.columnAt? source = some c ∧ g.columnAt? target = some c' ∧ c'.spec = c.spec

theorem columnAt?_eq {n : Node} {k : Nat} (hn : g.get? i = some n) :
    g.columnAt? (i, k) = n.output.columns[k]? := by
  simp [columnAt?, output?, hn]

/-- A trusted column of a node that is no source is handed on from an earlier node. -/
theorem Accounted.handsOn (hacc : g.Accounted declared) (hg : g.Linked) (hlaid : g.Laid) {n : Node}
    {k : Nat} {c : Column} (hn : g.get? i = some n) (hk : n.kind ≠ .create)
    (hc : n.output.columns[k]? = some c) (ht : c.colluders ≠ ∅) :
    ∃ p j c', p < i ∧ g.HandsOn (p, j) (i, k) ∧ g.columnAt? (p, j) = some c' ∧ c.spec = c'.spec := by
  obtain ⟨p, r, j, c', hinputs, hparents, hr, hc', hcopy, hspec⟩ := (hacc i n hn).trust hk k c hc ht
  have hedge : g.Edge p i := (hg.edges p i).mp (mem_parentsOf.mpr ⟨n, hn, (hparents p).mpr rfl⟩)
  have hsource : g.columnAt? (p, j) = some c' := by
    rw [columnAt?, hr]
    exact hc'
  have htarget : g.columnAt? (i, k) = some c := by
    rw [columnAt?_eq hn]
    exact hc
  have hcurrent : n.op.Current (g.operatorInputs i) := by
    rw [operatorInputs_eq hn]
    exact (hacc i n hn).current
  exact ⟨p, j, c', hlaid.forward p i hedge,
    ⟨⟨n, hn, hinputs, hparents, hcurrent, hcopy⟩, c', c, hsource, htarget, hspec⟩, hsource, hspec⟩

theorem Accounted.cleared (hacc : g.Accounted declared) {n : Node} (hn : g.get? i = some n)
    (hk : n.kind ∈ Kind.clears) (c : Column) (hc : c ∈ n.output.columns) : c.colluders = ∅ := by
  by_contra ht
  obtain ⟨k, hck⟩ := List.getElem?_of_mem hc
  have hcreate : n.kind ≠ .create := by
    intro he
    rw [he] at hk
    exact absurd hk (by decide)
  obtain ⟨p, r, j, c', _, _, _, _, hcopy, _⟩ := (hacc i n hn).trust hcreate k c hck ht
  exact hcopy.kind_not_mem hk

/-- A trusted column is followed back, from input to input, to a declaration. -/
theorem Accounted.traced (hacc : g.Accounted declared) (hg : g.Linked) (hlaid : g.Laid) (i : NodeId) :
    ∀ {n : Node} {k : Nat} {c : Column}, g.get? i = some n → n.output.columns[k]? = some c →
      c.colluders ≠ ∅ → ∃ s j m, Relation.ReflTransGen g.HandsOn (s, j) (i, k) ∧
        g.get? s = some m ∧ m.kind = .create ∧
        declared m.output.name (m.output.columns.map Column.spec) ∧
        (m.output.columns[j]?).map Column.spec = some c.spec := by
  induction i using Nat.strong_induction_on with
  | _ i ih =>
    intro n k c hn hc ht
    by_cases hk : n.kind = .create
    · exact ⟨i, k, n, .refl, hn, hk, (hacc i n hn).source hk, by rw [hc]; rfl⟩
    · obtain ⟨p, j, c', hlt, hstep, hc', hspec⟩ := hacc.handsOn hg hlaid hn hk hc ht
      obtain ⟨m, hm⟩ : ∃ m, g.get? p = some m := by
        obtain ⟨r, hr, _⟩ := Option.bind_eq_some_iff.mp hc'
        obtain ⟨m, hm, _⟩ := Option.map_eq_some_iff.mp hr
        exact ⟨m, hm⟩
      rw [columnAt?_eq hm] at hc'
      have ht' : c'.colluders ≠ ∅ := Column.colluders_of_spec hspec ▸ ht
      obtain ⟨s, l, m', hpath, hrest⟩ := ih p hlt hm hc' ht'
      exact ⟨s, l, m', hpath.tail hstep, hspec ▸ hrest⟩

end Plan

def Call.Declares (cs : List Call) (name : String) (columns : List ColumnSpec) : Prop :=
  ∃ holders, .build (.create name columns holders) ∈ cs

theorem Reached.accounted {cs : List Call} {d : Draft} (h : Reached (fun _ c => c ∈ cs ∧ c.Composes) d) :
    d.plan.Accounted (Call.Declares cs) := by
  refine (h.always (I := fun g => g.Linked ∧ g.Accounted (Call.Declares cs)) ⟨.empty, ?_⟩ ?_).2
  · intro i n hn
    simp at hn
  · rintro d c ⟨hmem, hc⟩ ⟨hl, hd⟩
    refine ⟨(Call.linked c).after hl, Call.composed_after hc hl hd ?_ fun id s => hd.heldBy id s⟩
    rintro b v id g' rfl hv hr
    refine hd.received hl hv ?_ hr
    rintro name columns holders rfl
    exact ⟨holders, hmem⟩

/-- Requests for operators and deliveries make up no trust. If a column of a node is trusted to somebody,
the node is a source, or the column is a copy, in name, type and trust, of a column of the node's only
input that the operator does not touch. So it can be followed back through such copies to a source, and
one of the requests declares it there as it is. Operators that put together their output from what they
read have no such column. -/
theorem trust_is_declared (cs : List Call) (hcs : ∀ c ∈ cs, c.Composes) (i : NodeId) (n : Node)
    (hn : (Call.afterAll cs ⟨∅, []⟩).plan.get? i = some n) :
    let g := (Call.afterAll cs ⟨∅, []⟩).plan
    (∀ k c, n.output.columns[k]? = some c → c.colluders ≠ ∅ →
      (n.kind = .create ∨ ∃ p j, g.HandsOn (p, j) (i, k)) ∧
      ∃ s j m name columns holders, Relation.ReflTransGen g.HandsOn (s, j) (i, k) ∧
        g.get? s = some m ∧ m.kind = .create ∧ m.output.name = name ∧
        .build (.create name columns holders) ∈ cs ∧ columns[j]? = some c.spec) ∧
    (n.kind ∈ Kind.clears → ∀ c ∈ n.output.columns, c.colluders = ∅) := by
  intro g
  have hreached : Reached (fun _ c => c ∈ cs ∧ c.Composes) (Call.afterAll cs ⟨∅, []⟩) :=
    Reached.start.afterAll (Call.allAllowed_of_forall (fun c hc => ⟨hc, hcs c hc⟩) _)
  have hacc : g.Accounted (Call.Declares cs) := hreached.accounted
  have hg : g.Linked := hreached.linked
  have hlaid : g.Laid := (hreached.mono fun _ _ h => h.2).laid
  refine ⟨fun k c hc ht => ⟨?_, ?_⟩, hacc.cleared hn⟩
  · by_cases hk : n.kind = .create
    · exact .inl hk
    · obtain ⟨p, j, _, _, hstep, _⟩ := hacc.handsOn hg hlaid hn hk hc ht
      exact .inr ⟨p, j, hstep⟩
  · obtain ⟨s, j, m, hpath, hm, hkind, ⟨holders, hdecl⟩, hspec⟩ := hacc.traced hg hlaid i hn hc ht
    refine ⟨s, j, m, _, _, holders, hpath, hm, hkind, rfl, hdecl, ?_⟩
    rw [List.getElem?_map]
    exact hspec

/-- Trusted columns that are numbered, filtered by, reckoned with, delivered, shared and joined. -/
def trusting : List Call :=
  [.build (.create "l" [⟨"k", .integer, .singleton 3⟩, ⟨"v", .integer, .singleton 4⟩,
      ⟨"w", .float, .ofList [1, 2]⟩] (.singleton 1)),
    .build (.index 0 "rows" "row"), .build (.filter 1 "kept" "k" .lt "10"),
    .build (.multiply 2 "scaled" "v" [.column "v", .int 2]), .collect 3 2,
    .build (.closing 3 "shared" (.ofList [1, 2])), .build (.join 4 0 "pairs" ["k"] ["k"])]

theorem trusting_trust_is_declared :
    let g := (Call.afterAll trusting ⟨∅, []⟩).plan
    let trusted : ColumnSpec := ⟨"w", .float, .ofList [1, 2]⟩
    ((g.columnAt? (4, 3)).map Column.spec = some trusted ∧ (g.get? 5).map Node.kind = some .join) ∧
      (∃ s j name columns holders, Relation.ReflTransGen g.HandsOn (s, j) (4, 3) ∧
        .build (.create name columns holders) ∈ trusting ∧ columns[j]? = some trusted) ∧
      ∀ n, g.get? 5 = some n → ∀ c ∈ n.output.columns, c.colluders = ∅ := by
  intro g trusted
  have hcs : ∀ c ∈ trusting, c.Composes := by simp [trusting, Call.Composes]
  have hw : (g.columnAt? (4, 3)).map Column.spec = some trusted := by decide +kernel
  have hjoin : (g.get? 5).map Node.kind = some .join := by decide +kernel
  refine ⟨⟨hw, hjoin⟩, ?_, fun n hn => ?_⟩
  · obtain ⟨c, hc, hspec⟩ := Option.map_eq_some_iff.mp hw
    obtain ⟨r, hr, hcol⟩ := Option.bind_eq_some_iff.mp hc
    obtain ⟨n, hn, rfl⟩ := Option.map_eq_some_iff.mp hr
    have ht : c.colluders ≠ ∅ := by
      rw [show c.colluders = trusted.colluders from congrArg ColumnSpec.colluders hspec]
      decide
    obtain ⟨_, s, j, m, name, columns, holders, hpath, _, _, _, hmem, hdecl⟩ :=
      (trust_is_declared trusting hcs 4 n hn).1 3 c hcol ht
    exact ⟨s, j, name, columns, holders, hpath, hmem, hspec ▸ hdecl⟩
  · rw [hn, Option.map_some, Option.some.injEq] at hjoin
    exact (trust_is_declared trusting hcs 5 n hn).2 (by rw [hjoin]; decide)

end PartyPlan
