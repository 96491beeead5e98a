import PartyPlan.Json.Decode
import PartyPlan.Schema

/-! Columns and relations as JSON. -/
namespace PartyPlan

namespace ScalarType

def all : List ScalarType := [integer, float, string, boolean]

def tag : ScalarType → String
  | integer => "Integer"
  | float => "Float"
  | string => "String"
  | boolean => "Boolean"

def encode (t : ScalarType) : Json := .str t.tag

def decode : Json → Option ScalarType := Json.tagged? all tag

end ScalarType

namespace Column

def encode (c : Column) : Json :=
  .obj [("rel_name", .str c.owner), ("name", .str c.name), ("idx", .nat c.index),
    ("type_tag", c.type.encode), ("coll_set", .ofSet c.colluders)]

def decode (j : Json) : Option Column :=
  match j.record? ["rel_name", "name", "idx", "type_tag", "coll_set"] 0 with
  | some [some owner, some name, some index, some type, some colluders] => do
    return { owner := ← owner.toStr?, name := ← name.toStr?, index := ← index.toNat?,
             type := ← ScalarType.decode type, colluders := ← colluders.toSet? }
  | _ => none

end Column

namespace Relation

def encode (r : Relation) : Json :=
  .obj [("name", .str r.name), ("columns", .ofList Column.encode r.columns),
    ("stored_with", .ofSet r.holders)]

def decode (j : Json) : Option Relation :=
  match j.record? ["name", "columns", "stored_with"] 0 with
  | some [some name, some columns, some holders] => do
    return { name := ← name.toStr?, columns := ← columns.toList? Column.decode,
             holders := ← holders.toSet? }
  | _ => none

end Relation
end PartyPlan
