import PartyPlan.Decimal.Layout
import PartyPlan.Json.Basic
import PartyPlan.Text.Blank

/-! The compact text of a JSON value: no blanks, fields in their order, and only what must be
escaped is escaped. -/
namespace PartyPlan.Json

def hexDigits : List Char := "0123456789abcdef".toList

def escape (c : Char) : List Char :=
  if c = '"' then ['\\', '"']
  else if c = '\\' then ['\\', '\\']
  else if c = '\n' then ['\\', 'n']
  else if c = '\r' then ['\\', 'r']
  else if c = '\t' then ['\\', 't']
  else if c.toNat = 8 then ['\\', 'b']
  else if c.toNat = 12 then ['\\', 'f']
  else if c.toNat < 32 then
    ['\\', 'u', '0', '0', hexDigits.getD (c.toNat / 16) '0', hexDigits.getD (c.toNat % 16) '0']
  else [c]

def quoted (s : String) : String := "\"" ++ String.ofList (s.toList.flatMap escape) ++ "\""

/-- A number with a point; infinities and undefined values have no text and become `null`. -/
def floatText (x : Float) : String :=
  match Decimal.Binary64.ofFloat x with
  | .finite .. => Decimal.Layout.pointed.float x
  | _ => "null"

mutual

def text : Json → String
  | null => "null"
  | bool b => if b then "true" else "false"
  | int n => toString n
  | float x => floatText x
  | str s => quoted s
  | arr items => "[" ++ Text.join "," (itemTexts items) ++ "]"
  | obj fields => "\x7b" ++ Text.join "," (fieldTexts fields) ++ "\x7d"

def itemTexts : List Json → List String
  | [] => []
  | item :: rest => text item :: itemTexts rest

def fieldTexts : List (String × Json) → List String
  | [] => []
  | (name, value) :: rest => (quoted name ++ ":" ++ text value) :: fieldTexts rest

end

end PartyPlan.Json
