import PartyPlan.Error
import PartyPlan.Text.Blank

/-! The kinds of relational operators and the words their parameters are given in. -/
namespace PartyPlan

inductive Arity where
  | unary
  | binary
  | nary
deriving DecidableEq

/-- The kinds of operators. `closing` shares a relation secretly among parties and `opening` reveals
it to one of them. -/
inductive Kind where
  | create
  | store
  | persist
  | opening
  | closing
  | send
  | aggregate
  | indexAggregate
  | project
  | index
  | shuffle
  | multiply
  | divide
  | filter
  | sortBy
  | compareNeighbours
  | distinct
  | join
  | indexJoin
  | revealJoin
  | hybridJoin
  | concat
deriving DecidableEq

namespace Kind

def name : Kind → String
  | create => "create"
  | store => "store"
  | persist => "persist"
  | opening => "open"
  | closing => "close"
  | send => "send"
  | aggregate => "aggregation"
  | indexAggregate => "indexAggregate"
  | project => "project"
  | index => "index"
  | shuffle => "shuffle"
  | multiply => "multiply"
  | divide => "divide"
  | filter => "filter"
  | sortBy => "sortBy"
  | compareNeighbours => "compNeighs"
  | distinct => "distinct"
  | join => "join"
  | indexJoin => "indexJoin"
  | revealJoin => "revealJoin"
  | hybridJoin => "hybridJoin"
  | concat => "concat"

def arity : Kind → Arity
  | join | indexJoin | revealJoin | hybridJoin => .binary
  | concat => .nary
  | _ => .unary

/-- Each party can compute the operator on its own data. -/
def isLocal : Kind → Bool
  | create | project | multiply | divide | filter => true
  | _ => false

/-- The operator is a secure computation, or borders on one, by its kind alone. -/
def isMpc : Kind → Bool
  | opening | closing | indexJoin | revealJoin | hybridJoin => true
  | _ => false

/-- Sources, and operators that hand data on to parties of their own choice. -/
def placesOutput : Kind → Bool
  | create | opening | closing | send => true
  | _ => false

end Kind

/-- How a group of values becomes one. -/
inductive Aggregator where
  | sum
  | count
  | min
  | max
  | mean
deriving DecidableEq

namespace Aggregator

def name : Aggregator → String
  | sum => "sum"
  | count => "count"
  | min => "min"
  | max => "max"
  | mean => "mean"

/-- Read an aggregator in any case; `+` and `avg` are second names. -/
def parse (s : String) : Except Error Aggregator :=
  match Text.lower s with
  | "+" | "sum" => .ok sum
  | "count" => .ok count
  | "min" => .ok min
  | "max" => .ok max
  | "mean" | "avg" => .ok mean
  | other => .error (.argument (.unknownAggregator other))

end Aggregator

inductive Comparison where
  | eq
  | ne
  | lt
  | le
  | gt
  | ge
deriving DecidableEq

namespace Comparison

def symbol : Comparison → String
  | eq => "=="
  | ne => "!="
  | lt => "<"
  | le => "<="
  | gt => ">"
  | ge => ">="

def parse : String → Except Error Comparison
  | "=" | "==" => .ok eq
  | "!=" | "<>" => .ok ne
  | "<" => .ok lt
  | "<=" => .ok le
  | ">" => .ok gt
  | ">=" => .ok ge
  | other => .error (.argument (.unknownComparison other))

end Comparison

inductive Side where
  | left
  | right
deriving DecidableEq

def Side.pick {α : Type} : Side → α → α → α
  | .left, l, _ => l
  | .right, _, r => r

@[simp] theorem Side.pick_left {α : Type} (l r : α) : Side.left.pick l r = l := rfl
@[simp] theorem Side.pick_right {α : Type} (l r : α) : Side.right.pick l r = r := rfl

end PartyPlan
