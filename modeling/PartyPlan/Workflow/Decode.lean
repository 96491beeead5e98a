import PartyPlan.Workflow.Basic
import PartyPlan.Yaml.Value

/-! Workflows from YAML trees. -/
namespace PartyPlan
open Yaml (Value Fault)

namespace ColumnDecl

def decode (v : Value) : Option ColumnDecl :=
  match v.record? ["name", "type", "coll_set"] with
  | some [some name, some type, colluders] => do
    return { name := ← name.toText?, type := ← type.toText?,
             colluders := ← (colluders.map (Value.toList? Value.toNat?)).getD (some []) }
  | _ => none

end ColumnDecl

namespace OperandDecl

/-- Numbers are integers while they fit 64 bits with a sign, and text is the name of a column. -/
def decode : Value → Option OperandDecl
  | .unsigned n => some (if n < signedLimit64 then .int n else .float (Decimal.ofParts n 0))
  | .signed n => some (.int n)
  | .float x => some (.float x)
  | .text s => some (.column s)
  | _ => none

end OperandDecl

namespace Step

def texts : Value → Option (List String) := Value.toList? Value.toText?

def decodeCreate (v : Value) : Option Step :=
  match v.record? ["name", "stored_with", "columns"] with
  | some [some name, some holders, some columns] => do
    return .create (← name.toText?) (← holders.toList? Value.toNat?)
      (← columns.toList? ColumnDecl.decode)
  | _ => none

/-- A step with a name, an input and a list of columns. -/
def decodeColumns (step : String → String → List String → Step) (v : Value) : Option Step :=
  match v.record? ["name", "input", "columns"] with
  | some [some name, some input, some columns] => do
    return step (← name.toText?) (← input.toText?) (← texts columns)
  | _ => none

def decodeAggregate (v : Value) : Option Step :=
  match v.record? ["name", "input", "group", "over", "aggregator", "as"] with
  | some [some name, some input, some group, some folded, some aggregator, some result] => do
    return .aggregate (← name.toText?) (← input.toText?) (← texts group) (← folded.toText?)
      (← aggregator.toText?) (← result.toText?)
  | _ => none

def decodeSortBy (v : Value) : Option Step :=
  match v.record? ["name", "input", "column"] with
  | some [some name, some input, some column] => do
    return .sortBy (← name.toText?) (← input.toText?) (← column.toText?)
  | _ => none

def decodeFilter (v : Value) : Option Step :=
  match v.record? ["name", "input", "column", "operator", "expr"] with
  | some [some name, some input, some column, some comparison, expression] => do
    return .filter (← name.toText?) (← input.toText?) (← column.toText?) (← comparison.toText?)
      (← (expression.map Value.toText?).getD (some ""))
  | _ => none

def decodeArithmetic (step : String → String → String → List OperandDecl → Step) (v : Value) :
    Option Step :=
  match v.record? ["name", "input", "target", "operands"] with
  | some [some name, some input, some target, some operands] => do
    return step (← name.toText?) (← input.toText?) (← target.toText?)
      (← operands.toList? OperandDecl.decode)
  | _ => none

def decodeJoin (v : Value) : Option Step :=
  match v.record? ["name", "left", "right", "left_on", "right_on"] with
  | some [some name, some left, some right, some leftKeys, some rightKeys] => do
    return .join (← name.toText?) (← left.toText?) (← right.toText?) (← texts leftKeys)
      (← texts rightKeys)
  | _ => none

def decodeConcat (v : Value) : Option Step :=
  match v.record? ["name", "inputs", "columns"] with
  | some [some name, some inputs, columns] => do
    return .concat (← name.toText?) (← texts inputs)
      (← (columns.map (Value.toOption? texts)).getD (some none))
  | _ => none

def decodeIndex (v : Value) : Option Step :=
  match v.record? ["name", "input", "column"] with
  | some [some name, some input, column] => do
    return .index (← name.toText?) (← input.toText?)
      (← (column.map (Value.toOption? Value.toText?)).getD (some none))
  | _ => none

def decodeShuffle (v : Value) : Option Step :=
  match v.record? ["name", "input"] with
  | some [some name, some input] => do return .shuffle (← name.toText?) (← input.toText?)
  | _ => none

def decodeCollect (v : Value) : Option Step :=
  match v.record? ["input", "party"] with
  | some [some input, some party] => do return .collect (← input.toText?) (← party.toNat?)
  | _ => none

/-- The fields of a step by the name of its operation. -/
def decodeFields (op : String) (v : Value) : Option Step :=
  match op with
  | "create" => decodeCreate v
  | "project" => decodeColumns .project v
  | "distinct" => decodeColumns .distinct v
  | "aggregate" => decodeAggregate v
  | "sort_by" => decodeSortBy v
  | "filter" => decodeFilter v
  | "multiply" => decodeArithmetic .multiply v
  | "divide" => decodeArithmetic .divide v
  | "join" => decodeJoin v
  | "concat" => decodeConcat v
  | "index" => decodeIndex v
  | "shuffle" => decodeShuffle v
  | "collect" => decodeCollect v
  | _ => none

def isOp : Value → Bool
  | .text s => s == "op"
  | _ => false

/-- A step is a mapping with its operation under `op`, or a sequence that starts with it. -/
def decode : Value → Option Step
  | .map entries =>
    match entries.filter (isOp ·.1) with
    | [(_, .text op)] => decodeFields op (.map (entries.filter fun e => !isOp e.1))
    | _ => none
  | .list (.text op :: fields) => decodeFields op (.list fields)
  | _ => none

end Step

namespace Workflow

/-- How deep collections may nest inside a step. -/
def stepDepth : Nat := 126

/-- An entry of a mapping by its key, whatever the key is written like. A key given twice is
refused, and so is one that is no scalar. -/
def entry (entries : List (Yaml.Node × Yaml.Node)) (name : String) :
    Except Fault (Option Yaml.Node) := do
  let named ← entries.mapM fun
    | (.scalar _ key, value) => pure (key, value)
    | _ => throw Fault.malformed
  match named.filter (·.1 == name) with
  | [] => return none
  | [(_, value)] => return some value
  | _ => throw .malformed

/-- The entries of a mapping; one that is left out has none. -/
def entriesOf : Yaml.Node → Except Fault (List (Yaml.Node × Yaml.Node))
  | .mapping entries => .ok entries
  | .scalar true "" => .ok []
  | _ => .error .malformed

/-- A switch; it must be plain. -/
def switch : Option Yaml.Node → Except Fault Bool
  | none => .ok true
  | some (.scalar true s) =>
    match Yaml.boolWord? s with
    | some b => .ok b
    | none => .error .malformed
  | some _ => .error .malformed

/-- A text; any scalar is taken as it is written. -/
def textOr (default : String) : Option Yaml.Node → Except Fault String
  | none => .ok default
  | some (.scalar _ s) => .ok s
  | some _ => .error .malformed

def decodeConfig (node : Yaml.Node) : Except Fault Config := do
  let entries ← entriesOf node
  return { deterministic := ← switch (← entry entries "deterministic")
           verifyChanges := ← switch (← entry entries "verify_rewrites")
           hybridJoins := ← switch (← entry entries "hybrid_joins")
           revealJoins := ← switch (← entry entries "reveal_joins")
           defaultIndexColumn := ← textOr "index" (← entry entries "default_index_col") }

def decodeConfig? : Option Yaml.Node → Except Fault (Option Config)
  | none => .ok none
  | some (.scalar true s) => if Yaml.isNullWord s then .ok none else .error .malformed
  | some node => (decodeConfig node).map some

def decodeStep (node : Yaml.Node) : Except Fault Step := do
  match Step.decode (← Value.ofNode stepDepth node) with
  | some step => return step
  | none => throw .malformed

def decodeSteps : Option Yaml.Node → Except Fault (List Step)
  | some (.sequence items) => items.mapM decodeStep
  | some (.scalar true "") => .ok []
  | _ => .error .malformed

def decode (node : Yaml.Node) : Except Fault Workflow := do
  let entries ← entriesOf node
  return { config := ← decodeConfig? (← entry entries "config")
           steps := ← decodeSteps (← entry entries "steps") }

end Workflow
end PartyPlan
