import PartyPlan.IdSet
import PartyPlan.Decimal.Reader
import PartyPlan.Json.Basic
import PartyPlan.Width

/-! Taking values out of JSON. A record is an object that has its fields by name, or an array that
has them in order; a choice is its tag alone, or an object whose one field is the tag. -/
namespace PartyPlan.Json

def toNat? : Json → Option Nat
  | int n => if 0 ≤ n ∧ n < limit64 then some n.toNat else none
  | _ => none

def toInt? : Json → Option Int
  | int n => if -signedLimit64 ≤ n ∧ n < signedLimit64 then some n else none
  | _ => none

def toFloat? : Json → Option Float
  | int n => some (if n < 0 then -(Decimal.ofParts n.natAbs 0) else Decimal.ofParts n.natAbs 0)
  | float x => some x
  | _ => none

def toBool? : Json → Option Bool
  | bool b => some b
  | _ => none

def toStr? : Json → Option String
  | str s => some s
  | _ => none

def toList? (decode : Json → Option α) : Json → Option (List α)
  | arr items => items.mapM decode
  | _ => none

def toOption? (decode : Json → Option α) : Json → Option (Option α)
  | null => some none
  | value => (decode value).map some

/-- A set, listed in any order and with any repetition. -/
def toSet? (j : Json) : Option IdSet := (toList? toNat? j).map IdSet.ofList

def ofSet (s : IdSet) : Json := ofList nat s.toList

/-- A field of an object by name. A name that stands twice names nothing. -/
def field? (fields : List (String × Json)) (name : String) : Option (Option Json) :=
  match fields.filter (·.1 == name) with
  | [] => some none
  | [(_, value)] => some (some value)
  | _ => none

/-- The fields of a record, by name from an object and by position from an array. Fields an object
does not have are absent; an array may end early by at most `optional` fields. -/
def record? (names : List String) (optional : Nat) : Json → Option (List (Option Json))
  | obj fields => names.mapM (field? fields)
  | arr items =>
    if items.length ≤ names.length ∧ names.length ≤ items.length + optional then
      some (items.map some ++ List.replicate (names.length - items.length) none)
    else none
  | _ => none

/-- A field that is left out has its default. -/
def withDefault? (decode : Json → Option α) (default : α) : Option Json → Option α
  | none => some default
  | some value => decode value

/-- The tag of a choice and what it carries. -/
def choice? : Json → Option (String × Option Json)
  | str tag => some (tag, none)
  | obj [(tag, payload)] => some (tag, some payload)
  | _ => none

def bare? (payload : Option Json) (a : α) : Option α :=
  match payload with
  | none | some null => some a
  | _ => none

/-- One of several choices that carry nothing. -/
def tagged? (all : List α) (tag : α → String) (j : Json) : Option α := do
  let (t, payload) ← choice? j
  bare? payload (← all.find? (tag · == t))

def tag (name : String) (payload : Json) : Json := obj [(name, payload)]

end PartyPlan.Json
