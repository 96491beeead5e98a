import PartyPlan.Operator.Basic

/-! The operator and the output of a new node, found from the relations it reads. Column names are
looked up here, so that nothing is added to a plan for a name that is not there. A column that an
operator touches comes out trusted to nobody. -/
namespace PartyPlan

structure ColumnSpec where
  name : String
  type : ScalarType
  colluders : PartySet := ∅
deriving DecidableEq

inductive OperandSpec where
  | column (name : String)
  | int (n : Int)
  | float (x : Float)
deriving DecidableEq

structure Derived where
  op : Operator
  output : Relation
deriving DecidableEq

namespace Derive

/-- The first item that stands earlier in the list too. -/
def firstRepeat (seen : List String) : List String → Option String
  | [] => none
  | s :: rest => if s ∈ seen then some s else firstRepeat (s :: seen) rest

def create (name : String) (columns : List ColumnSpec) (holders : PartySet) :
    Except Error Derived :=
  if columns.isEmpty then .error (.argument (.noColumns name))
  else
    match firstRepeat [] (columns.map (·.name)) with
    | some column => .error (.schema (.repeatedColumn name column))
    | none =>
      let declared := columns.map fun c => Column.mk name c.name 0 c.type c.colluders
      .ok ⟨.create, .stamped name declared holders⟩

def clearedAll (columns : List Column) : List Column := columns.map Column.cleared

def aggregate (input : Relation) (name : String) (groupBy : List String) (folded : String)
    (aggregator : Aggregator) (result : String) : Except Error Derived := do
  let groupBy ← input.findAll groupBy
  let folded ← input.find folded
  return { op := .aggregate { groupBy, folded, aggregator }
           output := .stamped name (clearedAll groupBy ++ [folded.cleared.named result]) input.holders }

def sortBy (input : Relation) (name column : String) : Except Error Derived := do
  let column ← input.find column
  return { op := .sortBy column
           output := .stamped name (clearedAll input.columns) input.holders }

def project (input : Relation) (name : String) (columns : List String) : Except Error Derived := do
  let columns ← input.findAll columns
  return { op := .project columns, output := .stamped name (clearedAll columns) input.holders }

def distinct (input : Relation) (name : String) (columns : List String) :
    Except Error Derived := do
  let columns ← input.findAll columns
  return { op := .distinct columns, output := .stamped name (clearedAll columns) input.holders }

def operand (input : Relation) : OperandSpec → Except Error Operand
  | .column name => (input.find name).map .column
  | .int n => .ok (.int n)
  | .float x => .ok (.float x)

/-- Clear a column in the place it says it has. -/
def clearAt (columns : List Column) (c : Column) : Except Error (List Column) :=
  if c.index < columns.length then .ok (columns.set c.index c.cleared)
  else .error (.outOfRange columns.length c.index)

def isFloat : Operand → Bool
  | .column c => c.type == .float
  | .int _ => false
  | .float _ => true

/-- The columns of an arithmetic output and the place of its target. A target that exists is
overwritten and must be the first operand; any other is a new column at the end. -/
def arithmeticColumns (input : Relation) (name target : String) (operands : List Operand) :
    Except Error (List Column × Nat) := do
  let columns ← (operands.filterMap Operand.column?).foldlM clearAt input.columns
  match input.find? target with
  | some existing =>
    if (operands.head?.bind Operand.column?).any (·.index == existing.index) then
      return (← clearAt columns existing, existing.index)
    else .error (.argument (.targetNotFirst target))
  | none =>
    let type : ScalarType := if operands.any isFloat then .float else .integer
    return (columns ++ [⟨name, target, columns.length, type, ∅⟩], columns.length)

/-- Multiplication or division, as `op` says. -/
def arithmetic (op : Arithmetic → Operator) (input : Relation) (name target : String)
    (operands : List OperandSpec) : Except Error Derived := do
  if operands.isEmpty then .error (.argument (.noOperands input.name))
  let operands ← operands.mapM (operand input)
  let (columns, place) ← arithmeticColumns input name target operands
  let output := Relation.stamped name columns input.holders
  match output.columns[place]? with
  | some target => return { op := op { target, operands }, output }
  | none => .error (.inconsistent (.targetVanished place))

def filter (input : Relation) (name column : String) (comparison : Comparison)
    (expression : String) : Except Error Derived := do
  let column ← input.find column
  let columns ← clearAt input.columns column
  return { op := .filter { column, comparison, expression }
           output := .stamped name columns input.holders }

def nonKeys (r : Relation) (keys : List Column) : List Column :=
  r.columns.filter fun c => decide (¬ c.index ∈ keys.map (·.index))

/-- The keys by their left names, then the other columns of the left input, then of the right. -/
def join (left right : Relation) (name : String) (leftKeys rightKeys : List String) :
    Except Error Derived := do
  let ls ← left.findAll leftKeys
  let rs ← right.findAll rightKeys
  return { op := .join { left := ls, right := rs }
           output := .stamped name
             (clearedAll ls ++ clearedAll (nonKeys left ls) ++ clearedAll (nonKeys right rs))
             (Relation.holdersOf [left, right]) }

/-- Relations on top of each other. The columns are those of the first, under new names if some are
given. -/
def concat (inputs : List Relation) (name : String) (names : Option (List String)) :
    Except Error Derived := do
  let first := (inputs.head?.map (·.columns)).getD []
  let width := first.length
  if let some bad := inputs.find? fun r => r.width != width then
    .error (.schema (.widthMismatch name bad.name bad.width width))
  let columns := clearedAll first
  let columns ← match names with
    | none => pure columns
    | some names =>
      if names.length = width then pure (columns.zipWith Column.named names)
      else .error (.schema (.nameCount name names.length width))
  return { op := .concat, output := .stamped name columns (Relation.holdersOf inputs) }

def index (input : Relation) (name column : String) : Except Error Derived :=
  match input.find? column with
  | some _ => .error (.schema (.columnTaken input.name column))
  | none =>
    .ok { op := .index column
          output := .stamped name (⟨name, column, 0, .integer, ∅⟩ :: input.columns) input.holders }

def compareNeighbours (input : Relation) (name column : String) : Except Error Derived := do
  let column ← input.find column
  return { op := .compareNeighbours column, output := .stamped name [column.cleared] input.holders }

def pass (op : Operator) (input : Relation) (name : String) : Derived := ⟨op, input.renamed name⟩

/-- An operator that passes its input on to parties of its choice. -/
def passTo (op : Operator) (input : Relation) (name : String) (holders : PartySet) : Derived :=
  ⟨op, (input.renamed name).heldBy holders⟩

end Derive
end PartyPlan
