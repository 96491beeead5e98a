import PartyPlan.Operator.Basic
import PartyPlan.Serial.Schema

/-! Operators and their parameters as JSON. -/
namespace PartyPlan

namespace Kind

def all : List Kind :=
  [create, store, persist, opening, closing, send, aggregate, indexAggregate, project, index, shuffle,
    multiply, divide, filter, sortBy, compareNeighbours, distinct, join, indexJoin, revealJoin,
    hybridJoin, concat]

def tag : Kind → String
  | create => "Create"
  | store => "Store"
  | persist => "Persist"
  | opening => "Open"
  | closing => "Close"
  | send => "Send"
  | aggregate => "Aggregate"
  | indexAggregate => "IndexAggregate"
  | project => "Project"
  | index => "Index"
  | shuffle => "Shuffle"
  | multiply => "Multiply"
  | divide => "Divide"
  | filter => "Filter"
  | sortBy => "SortBy"
  | compareNeighbours => "CompNeighs"
  | distinct => "Distinct"
  | join => "Join"
  | indexJoin => "IndexJoin"
  | revealJoin => "RevealJoin"
  | hybridJoin => "HybridJoin"
  | concat => "Concat"

def encode (k : Kind) : Json := .str k.tag

def decode : Json → Option Kind := Json.tagged? all tag

end Kind

namespace Aggregator

def all : List Aggregator := [sum, count, min, max, mean]

def tag : Aggregator → String
  | sum => "Sum"
  | count => "Count"
  | min => "Min"
  | max => "Max"
  | mean => "Mean"

def encode (a : Aggregator) : Json := .str a.tag

def decode : Json → Option Aggregator := Json.tagged? all tag

end Aggregator

namespace Comparison

def all : List Comparison := [eq, ne, lt, le, gt, ge]

def tag : Comparison → String
  | eq => "Eq"
  | ne => "NotEq"
  | lt => "Lt"
  | le => "LtEq"
  | gt => "Gt"
  | ge => "GtEq"

def encode (c : Comparison) : Json := .str c.tag

def decode : Json → Option Comparison := Json.tagged? all tag

end Comparison

namespace Side

def all : List Side := [left, right]

def tag : Side → String
  | left => "Left"
  | right => "Right"

def encode (s : Side) : Json := .str s.tag

def decode : Json → Option Side := Json.tagged? all tag

end Side

namespace Operand

def encode : Operand → Json
  | column c => .tag "Column" c.encode
  | int n => .tag "Int" (.int n)
  | float x => .tag "Float" (.float x)

def decode (j : Json) : Option Operand := do
  let (tag, payload) ← j.choice?
  match tag with
  | "Column" => return .column (← Column.decode (← payload))
  | "Int" => return .int (← (← payload).toInt?)
  | "Float" => return .float (← (← payload).toFloat?)
  | _ => none

end Operand

namespace Aggregation

def encode (a : Aggregation) : Json :=
  .obj [("group_cols", .ofList Column.encode a.groupBy), ("agg_col", a.folded.encode),
    ("aggregator", a.aggregator.encode)]

def decode (j : Json) : Option Aggregation :=
  match j.record? ["group_cols", "agg_col", "aggregator"] 0 with
  | some [some groupBy, some folded, some aggregator] => do
    return { groupBy := ← groupBy.toList? Column.decode, folded := ← Column.decode folded,
             aggregator := ← Aggregator.decode aggregator }
  | _ => none

end Aggregation

namespace Arithmetic

def encode (a : Arithmetic) : Json :=
  .obj [("target_col", a.target.encode), ("operands", .ofList Operand.encode a.operands)]

def decode (j : Json) : Option Arithmetic :=
  match j.record? ["target_col", "operands"] 0 with
  | some [some target, some operands] => do
    return { target := ← Column.decode target, operands := ← operands.toList? Operand.decode }
  | _ => none

end Arithmetic

namespace Condition

def encode (c : Condition) : Json :=
  .obj [("target_col", c.column.encode), ("operator", c.comparison.encode),
    ("expr", .str c.expression)]

def decode (j : Json) : Option Condition :=
  match j.record? ["target_col", "operator", "expr"] 0 with
  | some [some column, some comparison, some expression] => do
    return { column := ← Column.decode column, comparison := ← Comparison.decode comparison,
             expression := ← expression.toStr? }
  | _ => none

end Condition

namespace JoinKeys

def encode (k : JoinKeys) : Json :=
  .obj [("left_join_cols", .ofList Column.encode k.left),
    ("right_join_cols", .ofList Column.encode k.right)]

def decode (j : Json) : Option JoinKeys :=
  match j.record? ["left_join_cols", "right_join_cols"] 0 with
  | some [some left, some right] => do
    return { left := ← left.toList? Column.decode, right := ← right.toList? Column.decode }
  | _ => none

end JoinKeys

/-- The value of the only field of a record. -/
def decodeOnly (name : String) (decode : Json → Option α) (j : Json) : Option α :=
  match j.record? [name] 0 with
  | some [some value] => decode value
  | _ => none

namespace Operator

def encode (op : Operator) : Json :=
  match op with
  | aggregate spec => .tag "Aggregate" spec.encode
  | indexAggregate spec eqFlags sortedKeys =>
    .tag "IndexAggregate" <| .obj [("agg", spec.encode), ("eq_flag_op", .nat eqFlags),
      ("sorted_keys_op", .nat sortedKeys)]
  | project columns =>
    .tag "Project" <| .obj [("selected_cols", .ofList Column.encode columns)]
  | index column => .tag "Index" <| .obj [("idx_col_name", .str column)]
  | multiply spec => .tag "Multiply" spec.encode
  | divide spec => .tag "Divide" spec.encode
  | filter condition => .tag "Filter" condition.encode
  | sortBy column => .tag "SortBy" <| .obj [("sort_by_col", column.encode)]
  | compareNeighbours column => .tag "CompNeighs" <| .obj [("comp_col", column.encode)]
  | distinct columns =>
    .tag "Distinct" <| .obj [("selected_cols", .ofList Column.encode columns)]
  | join keys => .tag "Join" keys.encode
  | indexJoin keys aligner =>
    .tag "IndexJoin" <| .obj [("join", keys.encode), ("index_op", .nat aligner)]
  | revealJoin keys revealed =>
    .tag "RevealJoin" <| .obj [("join", keys.encode), ("revealed", revealed.side.encode),
      ("revealed_in_rel", revealed.relation.encode), ("recipient", .nat revealed.recipient)]
  | hybridJoin keys trusted =>
    .tag "HybridJoin" <| .obj [("join", keys.encode), ("trusted_party", .nat trusted)]
  | plain => .str plain.kind.tag

def decodeIndexAggregate (j : Json) : Option Operator :=
  match j.record? ["agg", "eq_flag_op", "sorted_keys_op"] 0 with
  | some [some spec, some eqFlags, some sortedKeys] => do
    return .indexAggregate (← Aggregation.decode spec) (← eqFlags.toNat?) (← sortedKeys.toNat?)
  | _ => none

def decodeIndexJoin (j : Json) : Option Operator :=
  match j.record? ["join", "index_op"] 0 with
  | some [some keys, some aligner] => do
    return .indexJoin (← JoinKeys.decode keys) (← aligner.toNat?)
  | _ => none

def decodeRevealJoin (j : Json) : Option Operator :=
  match j.record? ["join", "revealed", "revealed_in_rel", "recipient"] 0 with
  | some [some keys, some side, some relation, some recipient] => do
    return .revealJoin (← JoinKeys.decode keys)
      { side := ← Side.decode side, relation := ← Relation.decode relation,
        recipient := ← recipient.toNat? }
  | _ => none

def decodeHybridJoin (j : Json) : Option Operator :=
  match j.record? ["join", "trusted_party"] 0 with
  | some [some keys, some trusted] => do
    return .hybridJoin (← JoinKeys.decode keys) (← trusted.toNat?)
  | _ => none

def decode (j : Json) : Option Operator := do
  let (tag, payload) ← j.choice?
  match tag with
  | "Create" => Json.bare? payload .create
  | "Store" => Json.bare? payload .store
  | "Persist" => Json.bare? payload .persist
  | "Open" => Json.bare? payload .opening
  | "Close" => Json.bare? payload .closing
  | "Send" => Json.bare? payload .send
  | "Shuffle" => Json.bare? payload .shuffle
  | "Concat" => Json.bare? payload .concat
  | "Aggregate" => (Aggregation.decode (← payload)).map .aggregate
  | "IndexAggregate" => decodeIndexAggregate (← payload)
  | "Project" => (decodeOnly "selected_cols" (Json.toList? Column.decode) (← payload)).map .project
  | "Index" => (decodeOnly "idx_col_name" Json.toStr? (← payload)).map .index
  | "Multiply" => (Arithmetic.decode (← payload)).map .multiply
  | "Divide" => (Arithmetic.decode (← payload)).map .divide
  | "Filter" => (Condition.decode (← payload)).map .filter
  | "SortBy" => (decodeOnly "sort_by_col" Column.decode (← payload)).map .sortBy
  | "CompNeighs" => (decodeOnly "comp_col" Column.decode (← payload)).map .compareNeighbours
  | "Distinct" => (decodeOnly "selected_cols" (Json.toList? Column.decode) (← payload)).map .distinct
  | "Join" => (JoinKeys.decode (← payload)).map .join
  | "IndexJoin" => decodeIndexJoin (← payload)
  | "RevealJoin" => decodeRevealJoin (← payload)
  | "HybridJoin" => decodeHybridJoin (← payload)
  | _ => none

end Operator
end PartyPlan
