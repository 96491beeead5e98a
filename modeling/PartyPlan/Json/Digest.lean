import PartyPlan.Digest.Basic
import PartyPlan.Error
import PartyPlan.Json.Text

/-! Digests of JSON values, which do not depend on the order of fields. -/
namespace PartyPlan.Json

def digest (j : Json) : Digest := .ofText j.sorted.text

/-- The fields of an object given as pairs. Only a text can name a field. -/
def fieldsOfPairs : List (Json × Json) → Except Error (List (String × Json))
  | [] => .ok []
  | (str name, value) :: rest => do return (name, value) :: (← fieldsOfPairs rest)
  | _ :: _ => .error .keyNotText

def ofPairs (pairs : List (Json × Json)) : Except Error Json := (fieldsOfPairs pairs).map obj

end PartyPlan.Json
