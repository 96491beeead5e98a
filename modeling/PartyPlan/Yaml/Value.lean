import PartyPlan.Decimal.Reader
import PartyPlan.Yaml.Node

/-! What YAML trees mean when nothing says what to expect: plain scalars are read as nothing, truth
values, numbers or text, and quoted ones are text. -/
namespace PartyPlan.Yaml

/-- A value. Integers written with a minus sign are kept apart from those without. -/
inductive Value where
  | null
  | bool (b : Bool)
  | unsigned (n : Nat)
  | signed (n : Int)
  | float (x : Float)
  | text (s : String)
  | list (items : List Value)
  | map (entries : List (Value × Value))
deriving Inhabited

def isNullWord (s : String) : Bool := s == "" || s == "~" || s == "null" || s == "Null" || s == "NULL"

def boolWord? : String → Option Bool
  | "true" | "True" | "TRUE" => some true
  | "false" | "False" | "FALSE" => some false
  | _ => none

/-- The digit a character stands for in a base of at most sixteen. -/
def digitIn? (base : Nat) (c : Char) : Option Nat :=
  (Json.hexValue? c).filter (· < base)

/-- Digits in a base; there must be some. -/
def numberIn? (base : Nat) (cs : List Char) : Option Nat :=
  if cs.isEmpty then none else cs.foldlM (fun n c => (digitIn? base c).map (base * n + ·)) 0

/-- The magnitude of an integer: hexadecimal, octal or binary after a mark, or decimal. -/
def magnitude? (cs : List Char) : Option Nat :=
  match cs with
  | '0' :: 'x' :: ds => numberIn? 16 ds
  | '0' :: 'o' :: ds => numberIn? 8 ds
  | '0' :: 'b' :: ds => numberIn? 2 ds
  | '0' :: _ :: _ => if cs.all Char.isDigit then none else numberIn? 10 cs
  | _ => numberIn? 10 cs

/-- An integer with its sign. A plus may stand before one that is not negative. -/
def integer? (cs : List Char) : Option (Bool × Nat) :=
  match cs with
  | '-' :: ds => (magnitude? ds).map (true, ·)
  | '+' :: ds => (magnitude? ds).map (false, ·)
  | _ => (magnitude? cs).map (false, ·)

/-- Digits after a leading zero, which are text and no number. -/
def isZeroPadded (cs : List Char) : Bool :=
  let ds := match cs with
    | '-' :: ds => ds
    | '+' :: ds => ds
    | ds => ds
  decide (1 < ds.length) && ds.head? = some '0' && ds.all Char.isDigit

/-- A floating-point number: an infinity or an undefined value by its name, or a finite decimal. -/
def float? (s : String) : Option Float :=
  match s with
  | ".inf" | ".Inf" | ".INF" | "+.inf" | "+.Inf" | "+.INF" => some (1.0 / 0.0)
  | "-.inf" | "-.Inf" | "-.INF" => some (-1.0 / 0.0)
  | ".nan" | ".NaN" | ".NAN" => some (0.0 / 0.0)
  | _ => (Decimal.read? s).filter Float.isFinite

/-- The meaning of an integer. One past 64 bits is refused; one past 128 bits is no integer. -/
def ofInteger (s : String) (negative : Bool) (n : Nat) : Except Fault (Option Value) :=
  if negative then
    if n ≤ signedLimit64 then .ok (some (.signed (-n)))
    else if n ≤ signedLimit128 then .error .unsupported
    else .ok ((float? s).map .float)
  else if n < limit64 then .ok (some (.unsigned n))
  else if n < limit128 then .error .unsupported
  else .ok ((float? s).map .float)

def plainValue (s : String) : Except Fault Value :=
  if isNullWord s then .ok .null
  else
    match boolWord? s with
    | some b => .ok (.bool b)
    | none =>
      match integer? s.toList with
      | some (negative, n) => (ofInteger s negative n).map (·.getD (.text s))
      | none =>
        if isZeroPadded s.toList then .ok (.text s)
        else .ok (((float? s).map .float).getD (.text s))

mutual

/-- The meaning of a tree whose collections nest at most `depth` deep. -/
def Value.ofNode (depth : Nat) : Node → Except Fault Value
  | .scalar true s => plainValue s
  | .scalar false s => .ok (.text s)
  | .sequence items =>
    match depth with
    | 0 => .error .unsupported
    | depth + 1 => do return .list (← Value.ofItems depth items)
  | .mapping entries =>
    match depth with
    | 0 => .error .unsupported
    | depth + 1 => do return .map (← Value.ofEntries depth entries)

def Value.ofItems (depth : Nat) : List Node → Except Fault (List Value)
  | [] => .ok []
  | item :: rest => do
    let value ← Value.ofNode depth item
    return value :: (← Value.ofItems depth rest)

def Value.ofEntries (depth : Nat) : List (Node × Node) → Except Fault (List (Value × Value))
  | [] => .ok []
  | (key, item) :: rest => do
    let k ← Value.ofNode depth key
    let v ← Value.ofNode depth item
    return (k, v) :: (← Value.ofEntries depth rest)

end

namespace Value

def toText? : Value → Option String
  | text s => some s
  | _ => none

def toNat? : Value → Option Nat
  | unsigned n => some n
  | signed n => if 0 ≤ n then some n.toNat else none
  | _ => none

def toList? (decode : Value → Option α) : Value → Option (List α)
  | list items => items.mapM decode
  | _ => none

def toOption? (decode : Value → Option α) : Value → Option (Option α)
  | null => some none
  | value => (decode value).map some

/-- The place of a key among field names: by name, or by number. Other keys are refused, and keys
that name no field have the place after the last. -/
def fieldIndex? (names : List String) : Value → Option Nat
  | text s => some (names.idxOf s)
  | unsigned n => some (min n names.length)
  | _ => none

/-- The only entry with a key, if there is one. -/
def atMostOne (entries : List (Nat × Value)) (i : Nat) : Option (Option Value) :=
  match entries.filter (·.1 == i) with
  | [] => some none
  | [(_, v)] => some (some v)
  | _ => none

/-- The fields of a record: by key from a mapping, in order from a sequence. Fields left out are
absent, keys that name no field are passed over, and no field may be given twice. -/
def record? (names : List String) : Value → Option (List (Option Value))
  | map entries => do
    let indexed ← entries.mapM fun (k, v) => (fieldIndex? names k).map (·, v)
    (List.range names.length).mapM (atMostOne indexed)
  | list items =>
    if items.length ≤ names.length then
      some (items.map some ++ List.replicate (names.length - items.length) none)
    else none
  | _ => none

end Value
end PartyPlan.Yaml
