import PartyPlan.Build.Derive
import PartyPlan.Proofs.Columns

/-! Relations and operators with every column trusted to nobody. A look-up goes by names and places, and a
derivation by what was looked up; so trust can be cleared away before a derivation as well as after it. -/
namespace PartyPlan

/-! Who is trusted, taken away from whatever has columns. -/

namespace Column

@[simp] theorem name_cleared (c : Column) : c.cleared.name = c.name := rfl

@[simp] theorem index_cleared (c : Column) : c.cleared.index = c.index := rfl

@[simp] theorem cleared_named (c : Column) (name : String) :
    (c.named name).cleared = c.cleared.named name := rfl

end Column

def ColumnSpec.cleared (c : ColumnSpec) : ColumnSpec := { c with colluders := ∅ }

def Relation.cleared (r : Relation) : Relation := { r with columns := r.columns.map Column.cleared }

def Operand.cleared : Operand → Operand
  | column c => column c.cleared
  | scalar => scalar

def Aggregation.cleared (a : Aggregation) : Aggregation :=
  { a with groupBy := a.groupBy.map Column.cleared, folded := a.folded.cleared }

def Arithmetic.cleared (a : Arithmetic) : Arithmetic :=
  { target := a.target.cleared, operands := a.operands.map Operand.cleared }

def Condition.cleared (c : Condition) : Condition := { c with column := c.column.cleared }

def JoinKeys.cleared (keys : JoinKeys) : JoinKeys :=
  { left := keys.left.map Column.cleared, right := keys.right.map Column.cleared }

def Revelation.cleared (revealed : Revelation) : Revelation :=
  { revealed with relation := revealed.relation.cleared }

def Operator.cleared : Operator → Operator
  | aggregate spec => aggregate spec.cleared
  | indexAggregate spec eqFlags sortedKeys => indexAggregate spec.cleared eqFlags sortedKeys
  | project columns => project (columns.map Column.cleared)
  | multiply spec => multiply spec.cleared
  | divide spec => divide spec.cleared
  | filter condition => filter condition.cleared
  | sortBy column => sortBy column.cleared
  | compareNeighbours column => compareNeighbours column.cleared
  | distinct columns => distinct (columns.map Column.cleared)
  | join keys => join keys.cleared
  | indexJoin keys aligner => indexJoin keys.cleared aligner
  | revealJoin keys revealed => revealJoin keys.cleared revealed.cleared
  | hybridJoin keys trusted => hybridJoin keys.cleared trusted
  | op => op

def InputRelations.cleared (inputs : InputRelations) : InputRelations where
  primary := inputs.primary.map Relation.cleared
  left := inputs.left.map Relation.cleared
  right := inputs.right.map Relation.cleared

def Derived.cleared (d : Derived) : Derived := ⟨d.op.cleared, d.output.cleared⟩

section

variable {α α' β β' ε : Type}

/-- What commutes with a change of the value that is passed on, passed on or refused. -/
theorem map_bind_map {x : Except ε α} {f : α → Except ε β} {f' : α' → Except ε β'} {k : α → α'}
    {c : β → β'} (h : ∀ a, f' (k a) = (f a).map c) : (x.map k >>= f') = (x >>= f).map c := by
  cases x with
  | error e => rfl
  | ok a => exact h a

theorem bind_map {x : Except ε α} {f : α → Except ε β} {f' : α' → Except ε β} {k : α → α'}
    (h : ∀ a, f' (k a) = f a) : (x.map k >>= f') = x >>= f := by
  cases x with
  | error e => rfl
  | ok a => exact h a

/-- What commutes with a change of each item commutes with the change of all. -/
theorem mapM_map {f : α → Except ε β} {f' : α' → Except ε β'} {k : α → α'} {c : β → β'}
    (h : ∀ a, f' (k a) = (f a).map c) (as : List α) :
    (as.map k).mapM f' = (as.mapM f).map (List.map c) := by
  induction as with
  | nil => rfl
  | cons a as ih =>
    rw [List.map_cons, List.mapM_cons, List.mapM_cons, h, ih]
    cases f a with
    | error e => rfl
    | ok b => cases as.mapM f <;> rfl

end

/-! Looking columns up. -/

namespace Relation

variable (r : Relation)

@[simp] theorem name_cleared : r.cleared.name = r.name := rfl

@[simp] theorem holders_cleared : r.cleared.holders = r.holders := rfl

@[simp] theorem columns_cleared : r.cleared.columns = r.columns.map Column.cleared := rfl

@[simp] theorem width_cleared : r.cleared.width = r.width := List.length_map _

@[simp] theorem stamped_cleared (name : String) (columns : List Column) (s : PartySet) :
    stamped name (columns.map Column.cleared) s = (stamped name columns s).cleared := by
  have hcolumns : (columns.map Column.cleared).mapIdx (fun i c => c.placed name i) =
      (columns.mapIdx fun i c => c.placed name i).map Column.cleared := by
    refine List.ext_getElem? fun i => ?_
    rw [List.getElem?_mapIdx, List.getElem?_map, List.getElem?_map, List.getElem?_mapIdx]
    cases columns[i]? <;> rfl
  rw [stamped, hcolumns]
  rfl

@[simp] theorem heldBy_cleared (s : PartySet) : r.cleared.heldBy s = (r.heldBy s).cleared := rfl

@[simp] theorem renamed_cleared (name : String) : r.cleared.renamed name = (r.renamed name).cleared :=
  stamped_cleared name r.columns r.holders

theorem find?_cleared (name : String) : r.cleared.find? name = (r.find? name).map Column.cleared :=
  List.find?_map ..

theorem find_cleared (name : String) : r.cleared.find name = (r.find name).map Column.cleared := by
  rw [find, find, find?_cleared]
  cases r.find? name <;> rfl

theorem findAll_cleared (names : List String) :
    r.cleared.findAll names = (r.findAll names).map (List.map Column.cleared) := by
  have h := mapM_map (k := id) r.find_cleared names
  rwa [List.map_id] at h

theorem resolve_cleared (c : Column) :
    r.cleared.resolve c.cleared = (r.resolve c).map Column.cleared := by
  rw [resolve, resolve, columns_cleared, List.getElem?_map, Column.index_cleared, width_cleared]
  cases r.columns[c.index]? <;> rfl

theorem resolveAll_cleared (columns : List Column) :
    r.cleared.resolveAll (columns.map Column.cleared) =
      (r.resolveAll columns).map (List.map Column.cleared) :=
  mapM_map r.resolve_cleared columns

theorem holdersOf_cleared (rels : List Relation) : holdersOf (rels.map cleared) = holdersOf rels := by
  rw [holdersOf, List.map_map]
  rfl

end Relation

/-! Looking up again what an operator refers to. -/

theorem resolveIn_cleared (input : Option Relation) (columns : List Column) :
    resolveIn (input.map Relation.cleared) (columns.map Column.cleared) =
      (resolveIn input columns).map (List.map Column.cleared) := by
  cases input with
  | none => rfl
  | some r => exact r.resolveAll_cleared columns

theorem JoinKeys.refresh_cleared (keys : JoinKeys) (left right : Option Relation) :
    keys.cleared.refresh (left.map Relation.cleared) (right.map Relation.cleared) =
      (keys.refresh left right).map cleared := by
  rw [refresh, refresh, cleared, resolveIn_cleared, resolveIn_cleared]
  cases resolveIn left keys.left with
  | error e => rfl
  | ok ls => cases resolveIn right keys.right <;> rfl

theorem Aggregation.refresh_cleared (spec : Aggregation) (input : Relation) :
    spec.cleared.refresh input.cleared = (spec.refresh input).map cleared := by
  rw [refresh, refresh, cleared, input.resolveAll_cleared, input.resolve_cleared]
  cases input.resolveAll spec.groupBy with
  | error e => rfl
  | ok groupBy => cases input.resolve spec.folded <;> rfl

theorem Operand.refresh_cleared (input : Relation) (o : Operand) :
    o.cleared.refresh input.cleared = (o.refresh input).map cleared := by
  cases o with
  | column c =>
    simp only [cleared, refresh, input.resolve_cleared]
    cases input.resolve c <;> rfl
  | int n => rfl
  | float x => rfl

theorem Arithmetic.refresh_cleared (spec : Arithmetic) (input : Relation) :
    spec.cleared.refresh input.cleared = (spec.refresh input).map cleared := by
  rw [refresh, refresh, cleared, mapM_map (Operand.refresh_cleared input)]
  cases spec.operands.mapM (Operand.refresh input) <;> rfl

theorem Condition.refresh_cleared (condition : Condition) (input : Relation) :
    condition.cleared.refresh input.cleared = (condition.refresh input).map cleared := by
  rw [refresh, refresh, cleared, input.resolve_cleared]
  cases input.resolve condition.column <;> rfl

theorem Revelation.refresh_cleared (revealed : Revelation) (left right : Option Relation) :
    revealed.cleared.refresh (left.map Relation.cleared) (right.map Relation.cleared) =
      (revealed.refresh left right).cleared := by
  obtain ⟨side, relation, recipient⟩ := revealed
  cases side with
  | left => cases left <;> rfl
  | right => cases right <;> rfl

namespace Operator

@[simp] theorem kind_cleared (op : Operator) : op.cleared.kind = op.kind := by cases op <;> rfl

@[simp] theorem arity_cleared (op : Operator) : op.cleared.arity = op.arity := by
  rw [arity, kind_cleared, arity]

@[simp] theorem helpers_cleared (op : Operator) : op.cleared.helpers = op.helpers := by
  cases op <;> rfl

@[simp] theorem replaceHelper_cleared (op : Operator) (old new : NodeId) :
    op.cleared.replaceHelper old new = (op.replaceHelper old new).cleared := by cases op <;> rfl

theorem refreshUnary_cleared (op : Operator) (input : Relation) :
    op.cleared.refreshUnary input.cleared = (op.refreshUnary input).map cleared := by
  cases op with
  | aggregate spec | indexAggregate spec _ _ =>
    simp only [cleared, refreshUnary, spec.refresh_cleared]
    rfl
  | project columns | distinct columns =>
    simp only [cleared, refreshUnary, input.resolveAll_cleared]
    cases input.resolveAll columns <;> rfl
  | multiply spec | divide spec =>
    simp only [cleared, refreshUnary, spec.refresh_cleared]
    rfl
  | filter condition =>
    simp only [cleared, refreshUnary, condition.refresh_cleared]
    rfl
  | sortBy column | compareNeighbours column =>
    simp only [cleared, refreshUnary, input.resolve_cleared]
    cases input.resolve column <;> rfl
  | _ => rfl

/-- A look-up finds the same columns, whoever is trusted with them. -/
theorem refresh_cleared (op : Operator) (inputs : InputRelations) :
    op.cleared.refresh inputs.cleared = (op.refresh inputs).map cleared := by
  have hunary : op.joinKeys? = none → op.cleared.joinKeys? = none →
      op.cleared.refresh inputs.cleared = (op.refresh inputs).map cleared := by
    intro h h'
    rw [refresh_of_no_keys h, refresh_of_no_keys h']
    cases hp : inputs.primary with
    | none => simp [InputRelations.cleared, hp, Refreshed.done, Refreshed.map]
    | some r => simp [InputRelations.cleared, hp, op.refreshUnary_cleared]
  cases op with
  | join keys | indexJoin keys _ | hybridJoin keys _ =>
    simp only [cleared, refresh, InputRelations.cleared, keys.refresh_cleared]
    rfl
  | revealJoin keys revealed =>
    simp only [cleared, refresh, InputRelations.cleared, keys.refresh_cleared, revealed.refresh_cleared]
    cases h : (keys.refresh inputs.left inputs.right).outcome <;> simp [Refreshed.map, h] <;> rfl
  | _ => exact hunary rfl rfl

end Operator

/-! Deriving an operator and its output. -/

namespace Derive

variable (r : Relation) (name : String)

@[simp] theorem clearedAll_cleared (columns : List Column) :
    clearedAll (columns.map Column.cleared) = (clearedAll columns).map Column.cleared := rfl

theorem create_cleared (columns : List ColumnSpec) (s : PartySet) :
    create name (columns.map ColumnSpec.cleared) s = (create name columns s).map Derived.cleared := by
  have hnames : (columns.map ColumnSpec.cleared).map (·.name) = columns.map (·.name) := by
    rw [List.map_map]
    rfl
  have hdeclared : (columns.map ColumnSpec.cleared).map
      (fun c => Column.mk name c.name 0 c.type c.colluders) =
      (columns.map fun c => Column.mk name c.name 0 c.type c.colluders).map Column.cleared := by
    rw [List.map_map, List.map_map]
    rfl
  simp only [create, hnames, hdeclared, List.isEmpty_map, Relation.stamped_cleared]
  by_cases hempty : columns.isEmpty
  · rw [if_pos hempty, if_pos hempty]
    rfl
  · rw [if_neg hempty, if_neg hempty]
    cases firstRepeat [] (columns.map (·.name)) <;> rfl

/-- What a derivation comes to, from its operator and columns. -/
theorem derived_cleared {op op' : Operator} {columns columns' : List Column} {s : PartySet}
    (hop : op' = op.cleared) (hcolumns : columns' = columns.map Column.cleared) :
    (pure ⟨op', .stamped name columns' s⟩ : Except Error Derived) =
      (pure ⟨op, .stamped name columns s⟩ : Except Error Derived).map Derived.cleared := by
  rw [hop, hcolumns, Relation.stamped_cleared]
  rfl

theorem aggregate_cleared (groupBy : List String) (folded : String) (aggregator : Aggregator)
    (result : String) : aggregate r.cleared name groupBy folded aggregator result =
      (aggregate r name groupBy folded aggregator result).map Derived.cleared := by
  rw [aggregate, aggregate, r.findAll_cleared, r.find_cleared]
  exact map_bind_map fun cs => map_bind_map fun c => derived_cleared name rfl (by simp)

theorem sortBy_cleared (column : String) :
    sortBy r.cleared name column = (sortBy r name column).map Derived.cleared := by
  rw [sortBy, sortBy, r.find_cleared]
  exact map_bind_map fun c => derived_cleared name rfl rfl

theorem project_cleared (columns : List String) :
    project r.cleared name columns = (project r name columns).map Derived.cleared := by
  rw [project, project, r.findAll_cleared]
  exact map_bind_map fun cs => derived_cleared name rfl rfl

theorem distinct_cleared (columns : List String) :
    distinct r.cleared name columns = (distinct r name columns).map Derived.cleared := by
  rw [distinct, distinct, r.findAll_cleared]
  exact map_bind_map fun cs => derived_cleared name rfl rfl

theorem operand_cleared (spec : OperandSpec) :
    operand r.cleared spec = (operand r spec).map Operand.cleared := by
  cases spec with
  | column name =>
    rw [operand, operand, r.find_cleared]
    cases r.find name <;> rfl
  | int n => rfl
  | float x => rfl

theorem clearAt_cleared (columns : List Column) (c : Column) :
    clearAt (columns.map Column.cleared) c.cleared =
      (clearAt columns c).map (List.map Column.cleared) := by
  rw [clearAt, clearAt, List.length_map, Column.index_cleared]
  by_cases h : c.index < columns.length
  · rw [if_pos h, if_pos h, Except.map, List.map_set]
  · rw [if_neg h, if_neg h, Except.map]

theorem foldlM_clearAt_cleared (cs columns : List Column) :
    (cs.map Column.cleared).foldlM clearAt (columns.map Column.cleared) =
      (cs.foldlM clearAt columns).map (List.map Column.cleared) := by
  induction cs generalizing columns with
  | nil => rfl
  | cons c cs ih =>
    rw [List.map_cons, List.foldlM_cons, List.foldlM_cons, clearAt_cleared]
    exact map_bind_map fun columns => ih columns

theorem column?_cleared (o : Operand) : o.cleared.column? = o.column?.map Column.cleared := by
  cases o <;> rfl

theorem isFloat_cleared (o : Operand) : isFloat o.cleared = isFloat o := by cases o <;> rfl

theorem arithmeticColumns_cleared (target : String) (operands : List Operand) :
    arithmeticColumns r.cleared name target (operands.map Operand.cleared) =
      (arithmeticColumns r name target operands).map (Prod.map (List.map Column.cleared) id) := by
  have hcolumns : (operands.map Operand.cleared).filterMap Operand.column? =
      (operands.filterMap Operand.column?).map Column.cleared := by
    rw [List.filterMap_map, List.map_filterMap]
    exact List.filterMap_congr fun o _ => column?_cleared o
  have hhead : ∀ i, ((operands.map Operand.cleared).head?.bind Operand.column?).any (·.index == i) =
      (operands.head?.bind Operand.column?).any (·.index == i) := by
    intro i
    cases operands with
    | nil => rfl
    | cons o os => cases o <;> rfl
  have hfloat : (operands.map Operand.cleared).any isFloat = operands.any isFloat := by
    rw [List.any_map]
    exact congrArg operands.any (funext isFloat_cleared)
  rw [arithmeticColumns, arithmeticColumns, hcolumns, hfloat, r.columns_cleared,
    foldlM_clearAt_cleared, r.find?_cleared]
  refine map_bind_map fun columns => ?_
  cases r.find? target with
  | none => simp [Except.map, pure, Except.pure, Column.cleared]
  | some existing =>
    simp only [Option.map_some, hhead, Column.index_cleared]
    split
    · rw [clearAt_cleared]
      exact map_bind_map fun columns => rfl
    · rfl

theorem arithmetic_cleared {mk : Arithmetic → Operator} (hmk : ∀ spec, (mk spec).cleared = mk spec.cleared)
    (target : String) (operands : List OperandSpec) :
    arithmetic mk r.cleared name target operands =
      (arithmetic mk r name target operands).map Derived.cleared := by
  have hoperands : operands.mapM (operand r.cleared) =
      (operands.mapM (operand r)).map (List.map Operand.cleared) := by
    have h := mapM_map (k := id) (operand_cleared r) operands
    rwa [List.map_id] at h
  rw [arithmetic, arithmetic, hoperands]
  by_cases hempty : operands.isEmpty
  · rw [if_pos hempty, if_pos hempty]
    rfl
  · rw [if_neg hempty, if_neg hempty]
    refine map_bind_map fun os => ?_
    rw [arithmeticColumns_cleared]
    refine map_bind_map fun found => ?_
    obtain ⟨columns, place⟩ := found
    simp only [Prod.map_apply, id_eq, Relation.holders_cleared, Relation.stamped_cleared,
      Relation.columns_cleared, List.getElem?_map]
    cases (Relation.stamped name columns r.holders).columns[place]? with
    | none => rfl
    | some c => exact congrArg (fun op => Except.ok (Derived.mk op _)) (hmk ⟨c, os⟩).symm

theorem filter_cleared (column : String) (comparison : Comparison) (expression : String) :
    filter r.cleared name column comparison expression =
      (filter r name column comparison expression).map Derived.cleared := by
  rw [filter, filter, r.find_cleared]
  refine map_bind_map fun c => ?_
  rw [r.columns_cleared, clearAt_cleared]
  exact map_bind_map fun columns => derived_cleared name rfl rfl

theorem nonKeys_cleared (keys : List Column) :
    nonKeys r.cleared (keys.map Column.cleared) = (nonKeys r keys).map Column.cleared := by
  rw [nonKeys, nonKeys, r.columns_cleared, List.filter_map, List.map_map]
  rfl

theorem join_cleared (r' : Relation) (leftKeys rightKeys : List String) :
    join r.cleared r'.cleared name leftKeys rightKeys =
      (join r r' name leftKeys rightKeys).map Derived.cleared := by
  rw [join, join, r.findAll_cleared, r'.findAll_cleared]
  refine map_bind_map fun ls => map_bind_map fun rs => ?_
  rw [nonKeys_cleared, nonKeys_cleared]
  exact derived_cleared name rfl (by simp)

theorem concat_cleared (rels : List Relation) (names : Option (List String)) :
    concat (rels.map Relation.cleared) name names =
      (concat rels name names).map Derived.cleared := by
  have hfirst : ((rels.map Relation.cleared).head?.map (·.columns)).getD [] =
      ((rels.head?.map (·.columns)).getD []).map Column.cleared := by cases rels <;> rfl
  have hbad : ∀ width, (rels.map Relation.cleared).find? (fun r => r.width != width) =
      (rels.find? fun r => r.width != width).map Relation.cleared := by
    intro width
    have hwidth : (fun r : Relation => r.width != width) ∘ Relation.cleared = fun r => r.width != width := by
      funext r
      exact congrArg (· != width) r.width_cleared
    rw [List.find?_map, hwidth]
  simp only [concat, hfirst, hbad, List.length_map, clearedAll_cleared, Relation.holdersOf_cleared]
  generalize (rels.head?.map (·.columns)).getD [] = first
  cases rels.find? fun r => r.width != first.length with
  | some bad =>
    simp only [Option.map_some, Relation.name_cleared, Relation.width_cleared]
    rfl
  | none =>
    cases names with
    | none => exact derived_cleared name rfl rfl
    | some names =>
      by_cases h : names.length = first.length
      · simp only [if_pos h]
        refine derived_cleared name rfl ?_
        rw [List.map_zipWith, List.zipWith_map_left]
        rfl
      · simp only [if_neg h]
        rfl

theorem index_cleared (column : String) :
    index r.cleared name column = (index r name column).map Derived.cleared := by
  rw [index, index, r.find?_cleared]
  cases r.find? column with
  | some c => rfl
  | none => exact derived_cleared name rfl rfl

theorem compareNeighbours_cleared (column : String) :
    compareNeighbours r.cleared name column =
      (compareNeighbours r name column).map Derived.cleared := by
  rw [compareNeighbours, compareNeighbours, r.find_cleared]
  exact map_bind_map fun c => derived_cleared name rfl rfl

theorem pass_cleared {op : Operator} (hop : op.cleared = op) :
    pass op r.cleared name = (pass op r name).cleared := by
  rw [pass, pass, Derived.cleared, hop, r.renamed_cleared]

theorem passTo_cleared {op : Operator} (hop : op.cleared = op) (s : PartySet) :
    passTo op r.cleared name s = (passTo op r name s).cleared := by
  rw [passTo, passTo, Derived.cleared, hop, r.renamed_cleared, Relation.heldBy_cleared]

end Derive
end PartyPlan
