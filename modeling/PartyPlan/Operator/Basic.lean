import PartyPlan.Decimal.Layout
import PartyPlan.Operator.Kind
import PartyPlan.Schema

/-! Relational operators with their parameters. Columns among the parameters are copies of columns
of the input relations, taken when the operator was made or last refreshed. -/
namespace PartyPlan

/-- An input of arithmetic: a column or a number. -/
inductive Operand where
  | column (c : Column)
  | int (n : Int)
  | float (x : Float)
deriving DecidableEq

namespace Operand

def isZero : Operand → Bool
  | column _ => false
  | int n => n == 0
  | float x => x == 0.0

def column? : Operand → Option Column
  | column c => some c
  | _ => none

def describe : Operand → String
  | column c => c.name
  | int n => toString n
  | float x => Decimal.Layout.plain.float x

end Operand

/-- Rows grouped by some columns, with one more folded over each group. -/
structure Aggregation where
  groupBy : List Column
  folded : Column
  aggregator : Aggregator
deriving DecidableEq

/-- Arithmetic into `target`, a column of the output. -/
structure Arithmetic where
  target : Column
  operands : List Operand
deriving DecidableEq

structure Condition where
  column : Column
  comparison : Comparison
  expression : String
deriving DecidableEq

/-- The columns a join matches, pair by pair. -/
structure JoinKeys where
  left : List Column
  right : List Column
deriving DecidableEq

/-- One input of a join is shown to the party that holds the other and the output. -/
structure Revelation where
  side : Side
  relation : Relation
  recipient : Party
deriving DecidableEq

/-- An operator. An `indexAggregate` works from precomputed equality flags and sorted keys, an
`indexJoin` from a precomputed index; the nodes that make these are further parents. In a
`hybridJoin` one trusted party matches the keys in the clear. -/
inductive Operator where
  | create
  | store
  | persist
  | opening
  | closing
  | send
  | aggregate (spec : Aggregation)
  | indexAggregate (spec : Aggregation) (eqFlags sortedKeys : NodeId)
  | project (columns : List Column)
  | index (column : String)
  | shuffle
  | multiply (spec : Arithmetic)
  | divide (spec : Arithmetic)
  | filter (condition : Condition)
  | sortBy (column : Column)
  | compareNeighbours (column : Column)
  | distinct (columns : List Column)
  | join (keys : JoinKeys)
  | indexJoin (keys : JoinKeys) (aligner : NodeId)
  | revealJoin (keys : JoinKeys) (revealed : Revelation)
  | hybridJoin (keys : JoinKeys) (trusted : Party)
  | concat
deriving DecidableEq

namespace Operator

def kind : Operator → Kind
  | create => .create
  | store => .store
  | persist => .persist
  | opening => .opening
  | closing => .closing
  | send => .send
  | aggregate _ => .aggregate
  | indexAggregate .. => .indexAggregate
  | project _ => .project
  | index _ => .index
  | shuffle => .shuffle
  | multiply _ => .multiply
  | divide _ => .divide
  | filter _ => .filter
  | sortBy _ => .sortBy
  | compareNeighbours _ => .compareNeighbours
  | distinct _ => .distinct
  | join _ => .join
  | indexJoin .. => .indexJoin
  | revealJoin .. => .revealJoin
  | hybridJoin .. => .hybridJoin
  | concat => .concat

def arity (op : Operator) : Arity := op.kind.arity

def joinKeys? : Operator → Option JoinKeys
  | join keys => some keys
  | indexJoin keys _ => some keys
  | revealJoin keys _ => some keys
  | hybridJoin keys _ => some keys
  | _ => none

/-- Nodes an operator refers to beyond the inputs it names. -/
def helpers : Operator → List NodeId
  | indexAggregate _ eqFlags sortedKeys => [eqFlags, sortedKeys]
  | indexJoin _ aligner => [aligner]
  | _ => []

def swap (old new id : NodeId) : NodeId := if id = old then new else id

/-- Refer to the helper `new` wherever `old` was. -/
def replaceHelper (op : Operator) (old new : NodeId) : Operator :=
  match op with
  | indexAggregate spec eqFlags sortedKeys =>
    indexAggregate spec (swap old new eqFlags) (swap old new sortedKeys)
  | indexJoin keys aligner => indexJoin keys (swap old new aligner)
  | op => op

@[simp] theorem kind_replaceHelper (op : Operator) (old new : NodeId) :
    (op.replaceHelper old new).kind = op.kind := by cases op <;> rfl

@[simp] theorem helpers_replaceHelper (op : Operator) (old new : NodeId) :
    (op.replaceHelper old new).helpers = op.helpers.map (swap old new) := by cases op <;> rfl

/-- Whether the input could be found again from the output. A projection has to keep as many columns
as its input has, and a product must have no zero factor. -/
def isReversible (op : Operator) (input : Option Relation) : Bool :=
  match op with
  | store | persist | opening | closing | send | concat | index _ | shuffle | divide _ => true
  | project columns => input.any fun r => columns.length == r.width
  | multiply spec => spec.operands.all fun o => !o.isZero
  | _ => false

end Operator
end PartyPlan
