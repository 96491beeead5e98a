import Mathlib.Tactic.MkIffOfInductiveProp
import PartyPlan.Serial.Plan
import PartyPlan.Proofs.Legible

/-! Plans that are written down and read again. Every record is written as an object with its fields by
name, every choice under its tag, and every set as a list in order; reading finds each of them again. No
agreement between the parts of a plan is asked for. The numbers have to fit the widths they are kept in, and
there must be no floating-point number among the operands, which its text may not tell. -/
namespace PartyPlan

namespace Json

section Decode

variable {α β γ : Type}

theorem mapM_map_eq_some {f : α → β} {g : β → Option γ} {h : α → γ} {l : List α}
    (hl : ∀ a ∈ l, g (f a) = some (h a)) : (l.map f).mapM g = some (l.map h) := by
  induction l with
  | nil => rfl
  | cons a l ih =>
    obtain ⟨ha, hrest⟩ := List.forall_mem_cons.mp hl
    rw [List.map_cons, List.mapM_cons, ha, ih hrest]
    rfl

theorem toList?_ofList {encode : α → Json} {decode : Json → Option α} {l : List α}
    (h : ∀ a ∈ l, decode (encode a) = some a) : toList? decode (ofList encode l) = some l := by
  have hl := mapM_map_eq_some (h := id) h
  rw [List.map_id] at hl
  exact hl

theorem toNat?_nat {n : Nat} (h : n < limit64) : toNat? (nat n) = some n := by
  have hn : 0 ≤ (n : Int) ∧ (n : Int) < limit64 := by omega
  rw [nat, toNat?, if_pos hn, Int.toNat_natCast]

theorem toSet?_ofSet {s : IdSet} (h : ∀ a ∈ s.toList, a < limit64) : toSet? (ofSet s) = some s := by
  have hlist : toList? toNat? (ofList nat s.toList) = some s.toList :=
    toList?_ofList fun a ha => toNat?_nat (h a ha)
  have hset : IdSet.ofList s.toList = s := by
    ext a
    exact IdSet.mem_ofList
  rw [toSet?, ofSet, hlist, Option.map_some, hset]

theorem filter_name {fields : List (String × Json)} (hnames : (fields.map (·.1)).Nodup)
    {f : String × Json} (hf : f ∈ fields) : fields.filter (·.1 == f.1) = [f] := by
  induction fields with
  | nil => cases hf
  | cons g fields ih =>
    rw [List.map_cons, List.nodup_cons] at hnames
    rcases List.mem_cons.mp hf with rfl | hf
    · have hrest : fields.filter (·.1 == f.1) = [] := by
        rw [List.filter_eq_nil_iff]
        intro k hk he
        rw [beq_iff_eq] at he
        exact hnames.1 (he ▸ List.mem_map_of_mem hk)
      rw [List.filter_cons, if_pos (beq_self_eq_true f.1), hrest]
    · have hne : ¬ (g.1 == f.1) = true := by
        intro he
        rw [beq_iff_eq] at he
        exact hnames.1 (he ▸ List.mem_map_of_mem hf)
      rw [List.filter_cons, if_neg hne, ih hnames.2 hf]

/-- A record written with its fields by name has them all, if no name stands twice. -/
theorem record?_obj {fields : List (String × Json)} {names : List String} {optional : Nat}
    (hfields : fields.map (·.1) = names) (hnames : names.Nodup) :
    record? names optional (obj fields) = some (fields.map fun f => some f.2) := by
  subst hfields
  apply mapM_map_eq_some
  intro f hf
  rw [field?, filter_name hnames hf]

theorem legible_nat {n : Nat} (h : n < limit64) : Legible (nat n) := by
  apply Legible.int
  omega

theorem legible_ofList {encode : α → Json} {l : List α} (h : ∀ a ∈ l, Legible (encode a)) :
    Legible (ofList encode l) := by
  apply Legible.arr
  intro j hj
  obtain ⟨a, ha, rfl⟩ := List.mem_map.mp hj
  exact h a ha

theorem legible_ofSet {s : IdSet} (h : ∀ a ∈ s.toList, a < limit64) : Legible (ofSet s) :=
  legible_ofList fun a ha => legible_nat (h a ha)

theorem legible_tag (name : String) {payload : Json} (h : Legible payload) : Legible (tag name payload) := by
  apply Legible.obj
  simpa using h

end Decode

end Json

theorem ScalarType.decode_encode (t : ScalarType) : decode t.encode = some t := by cases t <;> rfl

theorem Aggregator.decode_encode (a : Aggregator) : decode a.encode = some a := by cases a <;> rfl

theorem Comparison.decode_encode (c : Comparison) : decode c.encode = some c := by cases c <;> rfl

theorem Side.decode_encode (s : Side) : decode s.encode = some s := by cases s <;> rfl

section Schema

def IdSet.Sized (s : IdSet) : Prop := ∀ a ∈ s, a < limit64

@[mk_iff] structure Column.Sized (c : Column) : Prop where
  index : c.index < limit64
  colluders : c.colluders.Sized

@[mk_iff] structure Relation.Sized (r : Relation) : Prop where
  columns : ∀ c ∈ r.columns, c.Sized
  holders : r.holders.Sized

variable {c : Column} {r : Relation} {columns : List Column}

theorem Column.decode_encode (h : c.Sized) : decode c.encode = some c := by
  rw [decode, encode, Json.record?_obj]
  · simp [Json.toStr?, Json.toNat?_nat h.index, ScalarType.decode_encode, Json.toSet?_ofSet h.colluders]
  · rfl
  · decide

theorem Column.legible_encode (h : c.Sized) : c.encode.Legible := by
  apply Json.Legible.obj
  simp [Json.Legible.str, Json.legible_nat h.index, ScalarType.encode, Json.legible_ofSet h.colluders]

theorem Column.decode_encodes (h : ∀ c ∈ columns, c.Sized) :
    Json.toList? decode (.ofList encode columns) = some columns :=
  Json.toList?_ofList fun c hc => decode_encode (h c hc)

theorem Column.legible_encodes (h : ∀ c ∈ columns, c.Sized) : (Json.ofList encode columns).Legible :=
  Json.legible_ofList fun c hc => legible_encode (h c hc)

theorem Relation.decode_encode (h : r.Sized) : decode r.encode = some r := by
  rw [decode, encode, Json.record?_obj]
  · simp [Json.toStr?, Column.decode_encodes h.columns, Json.toSet?_ofSet h.holders]
  · rfl
  · decide

theorem Relation.legible_encode (h : r.Sized) : r.encode.Legible := by
  apply Json.Legible.obj
  simp [Json.Legible.str, Column.legible_encodes h.columns, Json.legible_ofSet h.holders]

end Schema

section Parameters

/-- The numbers of an operand fit their widths; a whole number has a sign. -/
def Operand.Sized : Operand → Prop
  | column c => c.Sized
  | int n => -(signedLimit64 : Int) ≤ n ∧ n < signedLimit64
  | float _ => True

structure Aggregation.Sized (a : Aggregation) : Prop where
  groupBy : ∀ c ∈ a.groupBy, c.Sized
  folded : a.folded.Sized

@[mk_iff] structure Arithmetic.Sized (a : Arithmetic) : Prop where
  target : a.target.Sized
  operands : ∀ o ∈ a.operands, o.Sized

@[mk_iff] structure JoinKeys.Sized (k : JoinKeys) : Prop where
  left : ∀ c ∈ k.left, c.Sized
  right : ∀ c ∈ k.right, c.Sized

@[mk_iff] structure Revelation.Sized (v : Revelation) : Prop where
  relation : v.relation.Sized
  recipient : v.recipient < limit64

theorem Operand.decode_encode {o : Operand} (h : o.Sized) : decode o.encode = some o := by
  cases o with
  | column c =>
    have htag (p : Json) : decode (.tag "Column" p) = (Column.decode p).bind (some <| column ·) := rfl
    rw [encode, htag, Column.decode_encode h, Option.bind_some]
  | int n =>
    have htag (p : Json) : decode (.tag "Int" p) = (Json.toInt? p).bind (some <| int ·) := rfl
    have hint : Json.toInt? (.int n) = some n := if_pos h
    rw [encode, htag, hint, Option.bind_some]
  | float x => rfl

theorem Operand.legible_encode {o : Operand} (h : o.Sized) (hfloat : ∀ x, o ≠ float x) :
    o.encode.Legible := by
  cases o with
  | column c => exact Json.legible_tag _ (Column.legible_encode h)
  | int n =>
    have hn : -(signedLimit64 : Int) ≤ n ∧ n < signedLimit64 := h
    have hlimit := signedLimit64_add_self
    exact Json.legible_tag _ (.int (by omega))
  | float x => exact absurd rfl (hfloat x)

theorem Aggregation.decode_encode {a : Aggregation} (h : a.Sized) : decode a.encode = some a := by
  rw [decode, encode, Json.record?_obj]
  · simp [Column.decode_encodes h.groupBy, Column.decode_encode h.folded, Aggregator.decode_encode]
  · rfl
  · decide

theorem Aggregation.legible_encode {a : Aggregation} (h : a.Sized) : a.encode.Legible := by
  apply Json.Legible.obj
  simp [Column.legible_encodes h.groupBy, Column.legible_encode h.folded, Aggregator.encode, Json.Legible.str]

theorem Arithmetic.decode_encode {a : Arithmetic} (h : a.Sized) : decode a.encode = some a := by
  have hoperands := Json.toList?_ofList fun o ho => Operand.decode_encode (h.operands o ho)
  rw [decode, encode, Json.record?_obj]
  · simp [Column.decode_encode h.target, hoperands]
  · rfl
  · decide

theorem Arithmetic.legible_encode {a : Arithmetic} (h : a.Sized)
    (hfloat : ∀ o ∈ a.operands, ∀ x, o ≠ .float x) : a.encode.Legible := by
  have hoperands := Json.legible_ofList fun o ho => Operand.legible_encode (h.operands o ho) (hfloat o ho)
  apply Json.Legible.obj
  simp [Column.legible_encode h.target, hoperands]

theorem Condition.decode_encode {c : Condition} (h : c.column.Sized) : decode c.encode = some c := by
  rw [decode, encode, Json.record?_obj]
  · simp [Column.decode_encode h, Comparison.decode_encode, Json.toStr?]
  · rfl
  · decide

theorem Condition.legible_encode {c : Condition} (h : c.column.Sized) : c.encode.Legible := by
  apply Json.Legible.obj
  simp [Column.legible_encode h, Comparison.encode, Json.Legible.str]

theorem JoinKeys.decode_encode {k : JoinKeys} (h : k.Sized) : decode k.encode = some k := by
  rw [decode, encode, Json.record?_obj]
  · simp [Column.decode_encodes h.left, Column.decode_encodes h.right]
  · rfl
  · decide

theorem JoinKeys.legible_encode {k : JoinKeys} (h : k.Sized) : k.encode.Legible := by
  apply Json.Legible.obj
  simp [Column.legible_encodes h.left, Column.legible_encodes h.right]

theorem decodeOnly_obj {α : Type} (name : String) (decode : Json → Option α) (j : Json) :
    decodeOnly name decode (.obj [(name, j)]) = decode j := by
  rw [decodeOnly, Json.record?_obj]
  · rfl
  · rfl
  · simp

end Parameters

namespace Operator

def Sized : Operator → Prop
  | aggregate spec => spec.Sized
  | indexAggregate spec eqFlags sortedKeys => spec.Sized ∧ eqFlags < limit64 ∧ sortedKeys < limit64
  | project columns | distinct columns => ∀ c ∈ columns, c.Sized
  | multiply spec | divide spec => spec.Sized
  | filter condition => condition.column.Sized
  | sortBy column | compareNeighbours column => column.Sized
  | join keys => keys.Sized
  | indexJoin keys aligner => keys.Sized ∧ aligner < limit64
  | revealJoin keys revealed => keys.Sized ∧ revealed.Sized
  | hybridJoin keys trusted => keys.Sized ∧ trusted < limit64
  | _ => True

def operands : Operator → List Operand
  | multiply spec | divide spec => spec.operands
  | _ => []

theorem decodeIndexAggregate_obj {spec : Aggregation} {eqFlags sortedKeys : NodeId} (h : spec.Sized)
    (hflags : eqFlags < limit64) (hkeys : sortedKeys < limit64) :
    decodeIndexAggregate (.obj [("agg", spec.encode), ("eq_flag_op", .nat eqFlags),
      ("sorted_keys_op", .nat sortedKeys)]) = some (indexAggregate spec eqFlags sortedKeys) := by
  rw [decodeIndexAggregate, Json.record?_obj]
  · simp [Aggregation.decode_encode h, Json.toNat?_nat hflags, Json.toNat?_nat hkeys]
  · rfl
  · decide

theorem decodeIndexJoin_obj {keys : JoinKeys} {aligner : NodeId} (h : keys.Sized)
    (haligner : aligner < limit64) :
    decodeIndexJoin (.obj [("join", keys.encode), ("index_op", .nat aligner)]) =
      some (indexJoin keys aligner) := by
  rw [decodeIndexJoin, Json.record?_obj]
  · simp [JoinKeys.decode_encode h, Json.toNat?_nat haligner]
  · rfl
  · decide

theorem decodeRevealJoin_obj {keys : JoinKeys} {revealed : Revelation} (h : keys.Sized)
    (hrevealed : revealed.Sized) :
    decodeRevealJoin (.obj [("join", keys.encode), ("revealed", revealed.side.encode),
      ("revealed_in_rel", revealed.relation.encode), ("recipient", .nat revealed.recipient)]) =
      some (revealJoin keys revealed) := by
  rw [decodeRevealJoin, Json.record?_obj]
  · simp [JoinKeys.decode_encode h, Side.decode_encode, Relation.decode_encode hrevealed.relation,
      Json.toNat?_nat hrevealed.recipient]
  · rfl
  · decide

theorem decodeHybridJoin_obj {keys : JoinKeys} {trusted : Party} (h : keys.Sized)
    (htrusted : trusted < limit64) :
    decodeHybridJoin (.obj [("join", keys.encode), ("trusted_party", .nat trusted)]) =
      some (hybridJoin keys trusted) := by
  rw [decodeHybridJoin, Json.record?_obj]
  · simp [JoinKeys.decode_encode h, Json.toNat?_nat htrusted]
  · rfl
  · decide

theorem decode_encode {op : Operator} (h : op.Sized) : decode op.encode = some op := by
  -- What a tag leads to is stated for any payload, so that it is not computed from the payload at hand.
  cases op with
  | aggregate spec =>
    have htag (p : Json) : decode (.tag "Aggregate" p) = (Aggregation.decode p).map aggregate := rfl
    rw [encode, htag, Aggregation.decode_encode h, Option.map_some]
  | indexAggregate spec eqFlags sortedKeys =>
    have htag (p : Json) : decode (.tag "IndexAggregate" p) = decodeIndexAggregate p := rfl
    rw [encode, htag, decodeIndexAggregate_obj h.1 h.2.1 h.2.2]
  | project columns =>
    have htag (p : Json) : decode (.tag "Project" p) =
      (decodeOnly "selected_cols" (Json.toList? Column.decode) p).map project := rfl
    rw [encode, htag, decodeOnly_obj, Column.decode_encodes h, Option.map_some]
  | index column => rfl
  | multiply spec =>
    have htag (p : Json) : decode (.tag "Multiply" p) = (Arithmetic.decode p).map multiply := rfl
    rw [encode, htag, Arithmetic.decode_encode h, Option.map_some]
  | divide spec =>
    have htag (p : Json) : decode (.tag "Divide" p) = (Arithmetic.decode p).map divide := rfl
    rw [encode, htag, Arithmetic.decode_encode h, Option.map_some]
  | filter condition =>
    have htag (p : Json) : decode (.tag "Filter" p) = (Condition.decode p).map filter := rfl
    rw [encode, htag, Condition.decode_encode h, Option.map_some]
  | sortBy column =>
    have htag (p : Json) : decode (.tag "SortBy" p) =
      (decodeOnly "sort_by_col" Column.decode p).map sortBy := rfl
    rw [encode, htag, decodeOnly_obj, Column.decode_encode h, Option.map_some]
  | compareNeighbours column =>
    have htag (p : Json) : decode (.tag "CompNeighs" p) =
      (decodeOnly "comp_col" Column.decode p).map compareNeighbours := rfl
    rw [encode, htag, decodeOnly_obj, Column.decode_encode h, Option.map_some]
  | distinct columns =>
    have htag (p : Json) : decode (.tag "Distinct" p) =
      (decodeOnly "selected_cols" (Json.toList? Column.decode) p).map distinct := rfl
    rw [encode, htag, decodeOnly_obj, Column.decode_encodes h, Option.map_some]
  | join keys =>
    have htag (p : Json) : decode (.tag "Join" p) = (JoinKeys.decode p).map join := rfl
    rw [encode, htag, JoinKeys.decode_encode h, Option.map_some]
  | indexJoin keys aligner =>
    have htag (p : Json) : decode (.tag "IndexJoin" p) = decodeIndexJoin p := rfl
    rw [encode, htag, decodeIndexJoin_obj h.1 h.2]
  | revealJoin keys revealed =>
    have htag (p : Json) : decode (.tag "RevealJoin" p) = decodeRevealJoin p := rfl
    rw [encode, htag, decodeRevealJoin_obj h.1 h.2]
  | hybridJoin keys trusted =>
    have htag (p : Json) : decode (.tag "HybridJoin" p) = decodeHybridJoin p := rfl
    rw [encode, htag, decodeHybridJoin_obj h.1 h.2]
  | create | store | persist | opening | closing | send | shuffle | concat => rfl

theorem legible_encode {op : Operator} (h : op.Sized) (hfloat : ∀ o ∈ op.operands, ∀ x, o ≠ .float x) :
    op.encode.Legible := by
  cases op with
  | aggregate spec => exact Json.legible_tag _ (Aggregation.legible_encode h)
  | indexAggregate spec eqFlags sortedKeys =>
    apply Json.legible_tag
    apply Json.Legible.obj
    simp [Aggregation.legible_encode h.1, Json.legible_nat h.2.1, Json.legible_nat h.2.2]
  | project columns => exact Json.legible_tag _ (Json.legible_tag _ (Column.legible_encodes h))
  | index column => exact Json.legible_tag _ (Json.legible_tag _ (.str column))
  | multiply spec => exact Json.legible_tag _ (Arithmetic.legible_encode h hfloat)
  | divide spec => exact Json.legible_tag _ (Arithmetic.legible_encode h hfloat)
  | filter condition => exact Json.legible_tag _ (Condition.legible_encode h)
  | sortBy column => exact Json.legible_tag _ (Json.legible_tag _ (Column.legible_encode h))
  | compareNeighbours column => exact Json.legible_tag _ (Json.legible_tag _ (Column.legible_encode h))
  | distinct columns => exact Json.legible_tag _ (Json.legible_tag _ (Column.legible_encodes h))
  | join keys => exact Json.legible_tag _ (JoinKeys.legible_encode h)
  | indexJoin keys aligner =>
    apply Json.legible_tag
    apply Json.Legible.obj
    simp [JoinKeys.legible_encode h.1, Json.legible_nat h.2]
  | revealJoin keys revealed =>
    apply Json.legible_tag
    apply Json.Legible.obj
    simp [JoinKeys.legible_encode h.1, Side.encode, Json.Legible.str,
      Relation.legible_encode h.2.relation, Json.legible_nat h.2.recipient]
  | hybridJoin keys trusted =>
    apply Json.legible_tag
    apply Json.Legible.obj
    simp [JoinKeys.legible_encode h.1, Json.legible_nat h.2]
  | create | store | persist | opening | closing | send | shuffle | concat => exact .str _

end Operator

namespace Inputs

def Sized (inputs : Inputs) : Prop := ∀ p ∈ inputs.ids, p < limit64

theorem decodeSlot_encodeSlot {slot : Option NodeId} (h : ∀ p ∈ slot, p < limit64) :
    decodeSlot (encodeSlot slot) = some slot := by
  cases slot with
  | none => rfl
  | some p =>
    show (Json.toNat? (.nat p)).map some = _
    rw [Json.toNat?_nat (h p rfl)]
    rfl

theorem legible_encodeSlot {slot : Option NodeId} (h : ∀ p ∈ slot, p < limit64) :
    (encodeSlot slot).Legible := by
  cases slot with
  | none => exact .null
  | some p => exact Json.legible_nat (h p rfl)

theorem decode_encode {inputs : Inputs} (h : inputs.Sized) : decode inputs.encode = some inputs := by
  cases inputs with
  | unary input =>
    have htag (p : Json) : decode (.tag "Unary" p) = (decodeSlot p).bind (some <| unary ·) := rfl
    have hinput : ∀ p ∈ input, p < limit64 := fun p hp => h p (Option.mem_toList.mpr hp)
    rw [encode, htag, decodeSlot_encodeSlot hinput, Option.bind_some]
  | binary left right =>
    have htag (p : Json) : decode (.tag "Binary" p) = decodeBinary p := rfl
    have hleft : ∀ p ∈ left, p < limit64 := fun p hp =>
      h p (List.mem_append_left _ (Option.mem_toList.mpr hp))
    have hright : ∀ p ∈ right, p < limit64 := fun p hp =>
      h p (List.mem_append_right _ (Option.mem_toList.mpr hp))
    rw [encode, htag, decodeBinary, Json.record?_obj]
    · simp [Json.withDefault?, decodeSlot_encodeSlot hleft, decodeSlot_encodeSlot hright]
    · rfl
    · decide
  | nary ordered =>
    have htag (p : Json) : decode (.tag "Nary" p) =
      (Json.toList? Json.toNat? p).bind (some <| nary ·) := rfl
    have hordered : Json.toList? Json.toNat? (.ofList .nat ordered) = some ordered :=
      Json.toList?_ofList fun p hp => Json.toNat?_nat (h p hp)
    rw [encode, htag, hordered, Option.bind_some]

theorem legible_encode {inputs : Inputs} (h : inputs.Sized) : inputs.encode.Legible := by
  cases inputs with
  | unary input =>
    exact Json.legible_tag _ (legible_encodeSlot fun p hp => h p (Option.mem_toList.mpr hp))
  | binary left right =>
    have hleft := legible_encodeSlot fun p hp =>
      h p (List.mem_append_left right.toList (Option.mem_toList.mpr hp))
    have hright := legible_encodeSlot fun p hp =>
      h p (List.mem_append_right left.toList (Option.mem_toList.mpr hp))
    apply Json.legible_tag
    apply Json.Legible.obj
    simp [hleft, hright]
  | nary ordered => exact Json.legible_tag _ (Json.legible_ofList fun p hp => Json.legible_nat (h p hp))

end Inputs

@[mk_iff] structure Node.Sized (n : Node) : Prop where
  id : n.id < limit64
  op : n.op.Sized
  output : n.output.Sized
  inputs : n.inputs.Sized
  parents : n.parents.Sized
  children : n.children.Sized

theorem Node.decode_encode {n : Node} (h : n.Sized) : decode n.encode = some n := by
  rw [decode, encode, Json.record?_obj]
  · simp [Json.toNat?_nat h.id, Operator.decode_encode h.op, Relation.decode_encode h.output, Json.toBool?,
      Inputs.decode_encode h.inputs, Json.toSet?_ofSet h.parents, Json.toSet?_ofSet h.children]
  · rfl
  · decide

theorem Node.legible_encode {n : Node} (h : n.Sized) (hfloat : ∀ o ∈ n.op.operands, ∀ x, o ≠ .float x) :
    n.encode.Legible := by
  apply Json.Legible.obj
  simp [Json.legible_nat h.id, Operator.legible_encode h.op hfloat, Relation.legible_encode h.output,
    Json.Legible.bool, Inputs.legible_encode h.inputs, Json.legible_ofSet h.parents,
    Json.legible_ofSet h.children]

namespace Plan

@[mk_iff] structure Sized (g : Plan) : Prop where
  nodes : ∀ n ∈ g.nodes.toList, n.Sized
  roots : g.roots.Sized

def WithoutFloats (g : Plan) : Prop :=
  ∀ n ∈ g.nodes.toList, ∀ o ∈ n.op.operands, ∀ x, o ≠ .float x

theorem decode_encode {g : Plan} (h : g.Sized) : decode g.encode = some g := by
  have hnodes := Json.toList?_ofList fun n hn => Node.decode_encode (h.nodes n hn)
  rw [decode, encode, Json.record?_obj]
  · simp [hnodes, Json.toSet?_ofSet h.roots]
  · rfl
  · decide

theorem legible_encode {g : Plan} (h : g.Sized) (hfloat : g.WithoutFloats) : g.encode.Legible := by
  have hnodes := Json.legible_ofList fun n hn => Node.legible_encode (h.nodes n hn) (hfloat n hn)
  apply Json.Legible.obj
  simp [hnodes, Json.legible_ofSet h.roots]

end Plan

/-- A plan is read again from what is written of it: from the tree of its records, and from the text of that
tree. It need not make sense as a plan. -/
theorem serialized_plan_restored (g : Plan) (hsized : g.Sized) (hfloat : g.WithoutFloats) :
    Plan.decode g.encode = some g ∧ Plan.ofText? g.toText = some g := by
  have htree := Plan.decode_encode hsized
  have htext := (Plan.legible_encode hsized hfloat).read?_text
  refine ⟨htree, ?_⟩
  rw [Plan.ofText?, Plan.toText, htext, Option.bind_some, htree]

/-- Two nodes whose numbers, edges and inputs disagree, with names that cannot be written as they are. -/
def tangled : Plan :=
  let total : Column := ⟨"a \"b\"\\", "line\nbreak", 18446744073709551615, .float, .ofList [7, 3]⟩
  let shown : Relation := ⟨"\t\x01😀", [total, total], .singleton 0⟩
  { nodes := #[
      { id := 9, op := .multiply ⟨total, [.int (-9223372036854775808), .column total]⟩, output := shown,
        isLocal := false, isMpc := true, inputs := .binary none (some 40), parents := .ofList [5, 2],
        children := .singleton 0 },
      { id := 9, op := .revealJoin ⟨[total], []⟩ ⟨.right, shown, 1⟩, output := ⟨"", [], ∅⟩, isLocal := true,
        isMpc := true, inputs := .nary [3, 3, 1], parents := ∅, children := .singleton 77 }],
    roots := .ofList [4, 0] }

theorem tangled_restored : (tangled.Sized ∧ tangled.WithoutFloats) ∧
    Plan.decode tangled.encode = some tangled ∧ Plan.ofText? tangled.toText = some tangled := by
  have hsized : tangled.Sized := by
    simp [tangled, Plan.sized_iff, Node.sized_iff, Operator.Sized, Arithmetic.sized_iff, Operand.Sized,
      JoinKeys.sized_iff, Revelation.sized_iff, Relation.sized_iff, Column.sized_iff, Inputs.Sized,
      Inputs.ids, IdSet.Sized, limit64, signedLimit64]
  have hfloat : tangled.WithoutFloats := by
    simp [tangled, Plan.WithoutFloats, Operator.operands]
  exact ⟨⟨hsized, hfloat⟩, serialized_plan_restored tangled hsized hfloat⟩

end PartyPlan
