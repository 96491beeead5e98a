import PartyPlan.Build.Basic
import PartyPlan.Workflow.Decode

/-! The plan of a workflow. -/
namespace PartyPlan

inductive WorkflowError where
  | plan (e : Error)
  | text (fault : Yaml.Fault)
  | unknownInput (step input : String)
  | duplicateName (name : String)
  | empty
deriving DecidableEq

def WorkflowError.message : WorkflowError → String
  | plan e => e.message
  | text _ => "workflow parse error"
  | unknownInput step input => s!"step '{step}' references unknown input '{input}'"
  | duplicateName name => s!"duplicate relation name '{name}'"
  | empty => "invalid workflow: workflow has no steps"

/-- Names and the nodes that make what they name, sorted by name. -/
abbrev Scope := List (String × NodeId)

namespace Scope

def find? (s : Scope) (name : String) : Option NodeId := (List.find? (·.1 == name) s).map (·.2)

def insert (name : String) (id : NodeId) : Scope → Scope
  | [] => [(name, id)]
  | (n, i) :: rest => if name < n then (name, id) :: (n, i) :: rest else (n, i) :: insert name id rest

end Scope

/-- A plan in the making, and the names bound so far. -/
structure Assembly where
  plan : Plan := ∅
  scope : Scope := []

namespace Assembly

def lookup (a : Assembly) (step input : String) : Except WorkflowError NodeId :=
  match a.scope.find? input with
  | some id => .ok id
  | none => .error (.unknownInput step input)

def ofPlan : Except Error α → Except WorkflowError α
  | .ok x => .ok x
  | .error e => .error (.plan e)

def edit (a : Assembly) (x : Edit α) : Except WorkflowError (α × Plan) :=
  match x.apply { plan := a.plan } with
  | (.ok r, d) => .ok (r, d.plan)
  | (.error e, _) => .error (.plan e)

/-- Add a node and bind a new name to it. -/
def add (a : Assembly) (name : String) (x : Edit NodeId) : Except WorkflowError Assembly := do
  let (id, plan) ← a.edit x
  match a.scope.find? name with
  | some _ => throw (.duplicateName name)
  | none => return { plan, scope := a.scope.insert name id }

def columnSpec (c : ColumnDecl) : Except WorkflowError ColumnSpec := do
  return { name := c.name, type := ← ofPlan (ScalarType.parse c.type),
           colluders := .ofList c.colluders }

def operandSpec : OperandDecl → OperandSpec
  | .int n => .int n
  | .float x => .float x
  | .column name => .column name

def step (config : Config) (a : Assembly) : Step → Except WorkflowError Assembly
  | .create name holders columns => do
    let columns ← columns.mapM columnSpec
    a.add name (Build.create name columns (.ofList holders))
  | .project name input columns => do
    let input ← a.lookup name input
    a.add name (Build.project input name columns)
  | .distinct name input columns => do
    let input ← a.lookup name input
    a.add name (Build.distinct input name columns)
  | .aggregate name input groupBy folded aggregator result => do
    let input ← a.lookup name input
    let aggregator ← ofPlan (Aggregator.parse aggregator)
    a.add name (Build.aggregate input name groupBy folded aggregator result)
  | .sortBy name input column => do
    let input ← a.lookup name input
    a.add name (Build.sortBy input name column)
  | .filter name input column comparison expression => do
    let input ← a.lookup name input
    let comparison ← ofPlan (Comparison.parse comparison)
    a.add name (Build.filter input name column comparison expression)
  | .multiply name input target operands => do
    let input ← a.lookup name input
    a.add name (Build.multiply input name target (operands.map operandSpec))
  | .divide name input target operands => do
    let input ← a.lookup name input
    a.add name (Build.divide input name target (operands.map operandSpec))
  | .join name left right leftKeys rightKeys => do
    let left ← a.lookup name left
    let right ← a.lookup name right
    a.add name (Build.join left right name leftKeys rightKeys)
  | .concat name inputs columns => do
    let inputs ← inputs.mapM (a.lookup name)
    a.add name (Build.concat inputs name columns)
  | .index name input column => do
    let input ← a.lookup name input
    a.add name (Build.index input name (column.getD config.defaultIndexColumn))
  | .shuffle name input => do
    let input ← a.lookup name input
    a.add name (Build.shuffle input name)
  | .collect input party => do
    let id ← a.lookup "collect" input
    let (_, plan) ← a.edit (Build.collect id party)
    return { a with plan }

end Assembly

/-- The plan of a workflow, its settings and its names, and what was reported. -/
structure Assembled where
  plan : Plan
  config : Config
  scope : Scope
  journal : List Event

namespace Workflow

def assembled (a : Assembly) (config : Config) : Assembled :=
  { plan := a.plan, config, scope := a.scope
    journal := [{ level := .debug, message := "parsed workflow",
                  details := [("nodes", toString a.plan.size),
                    ("roots", toString a.plan.roots.size)] }] }

def assemble (w : Workflow) : Except WorkflowError Assembled := do
  let config := w.config.getD {}
  Assembly.ofPlan config.check
  let a ← w.steps.foldlM (Assembly.step config) {}
  if a.plan.size = 0 then throw .empty
  return assembled a config

def read (text : String) : Except WorkflowError Assembled := do
  match Yaml.Node.read text >>= decode with
  | .ok w => w.assemble
  | .error fault => throw (.text fault)

end Workflow
end PartyPlan
