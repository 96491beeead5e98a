import PartyPlan.Operator.Basic

/-! Refreshing the columns an operator refers to. Each reference is looked up again, by position, in
the relation its input now produces. Inputs that are missing leave their references alone. When a
reference finds no column, the references refreshed before it stay refreshed. -/
namespace PartyPlan

/-- The relations an operator now reads: the single input of a unary one, or both sides. -/
structure InputRelations where
  primary : Option Relation := none
  left : Option Relation := none
  right : Option Relation := none

/-- What became of a value, and whether all of it could be refreshed. -/
structure Refreshed (α : Type) where
  value : α
  outcome : Except Error Unit

namespace Refreshed

def done (a : α) : Refreshed α := ⟨a, .ok ()⟩

def map (f : α → β) (r : Refreshed α) : Refreshed β := ⟨f r.value, r.outcome⟩

/-- Take over a refreshed part, or keep the whole and the reason. -/
def ofExcept (whole : α) (f : β → α) : Except Error β → Refreshed α
  | .ok part => ⟨f part, .ok ()⟩
  | .error e => ⟨whole, .error e⟩

end Refreshed

def resolveIn (input : Option Relation) (stale : List Column) : Except Error (List Column) :=
  match input with
  | none => .ok stale
  | some r => r.resolveAll stale

/-- The left keys are refreshed before the right ones. -/
def JoinKeys.refresh (keys : JoinKeys) (left right : Option Relation) : Refreshed JoinKeys :=
  match resolveIn left keys.left with
  | .error e => ⟨keys, .error e⟩
  | .ok ls => .ofExcept { keys with left := ls } (fun rs => ⟨ls, rs⟩) (resolveIn right keys.right)

/-- The grouping columns are refreshed before the folded one. -/
def Aggregation.refresh (spec : Aggregation) (input : Relation) : Refreshed Aggregation :=
  match input.resolveAll spec.groupBy with
  | .error e => ⟨spec, .error e⟩
  | .ok groupBy =>
    .ofExcept { spec with groupBy } (fun folded => { spec with groupBy, folded })
      (input.resolve spec.folded)

def Operand.refresh (input : Relation) : Operand → Except Error Operand
  | .column c => (input.resolve c).map .column
  | scalar => .ok scalar

/-- The operands are refreshed; the target belongs to the output and stays. -/
def Arithmetic.refresh (spec : Arithmetic) (input : Relation) : Refreshed Arithmetic :=
  .ofExcept spec (fun operands => { spec with operands }) (spec.operands.mapM (Operand.refresh input))

def Condition.refresh (condition : Condition) (input : Relation) : Refreshed Condition :=
  .ofExcept condition (fun column => { condition with column }) (input.resolve condition.column)

/-- The relation on the revealed side is taken over as it now is. -/
def Revelation.refresh (revealed : Revelation) (left right : Option Relation) : Revelation :=
  { revealed with relation := (revealed.side.pick left right).getD revealed.relation }

namespace Operator

def refreshUnary (op : Operator) (input : Relation) : Refreshed Operator :=
  match op with
  | aggregate spec => (spec.refresh input).map .aggregate
  | indexAggregate spec eqFlags sortedKeys =>
    (spec.refresh input).map fun spec => .indexAggregate spec eqFlags sortedKeys
  | project columns => .ofExcept op .project (input.resolveAll columns)
  | distinct columns => .ofExcept op .distinct (input.resolveAll columns)
  | multiply spec => (spec.refresh input).map .multiply
  | divide spec => (spec.refresh input).map .divide
  | filter condition => (condition.refresh input).map .filter
  | sortBy column => .ofExcept op .sortBy (input.resolve column)
  | compareNeighbours column => .ofExcept op .compareNeighbours (input.resolve column)
  | op => .done op

def refresh (op : Operator) (inputs : InputRelations) : Refreshed Operator :=
  match op with
  | join keys => (keys.refresh inputs.left inputs.right).map .join
  | indexJoin keys aligner =>
    (keys.refresh inputs.left inputs.right).map fun keys => .indexJoin keys aligner
  | hybridJoin keys trusted =>
    (keys.refresh inputs.left inputs.right).map fun keys => .hybridJoin keys trusted
  | revealJoin keys revealed =>
    let keys := keys.refresh inputs.left inputs.right
    match keys.outcome with
    | .ok _ => .done (.revealJoin keys.value (revealed.refresh inputs.left inputs.right))
    | .error e => ⟨.revealJoin keys.value revealed, .error e⟩
  | op =>
    match inputs.primary with
    | some input => op.refreshUnary input
    | none => .done op

end Operator
end PartyPlan
