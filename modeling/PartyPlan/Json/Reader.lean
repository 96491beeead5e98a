import PartyPlan.Decimal.Reader
import PartyPlan.Json.Basic
import PartyPlan.Width

/-! Reading JSON text. A number without point and exponent is an integer if it fits 64 bits, signed
when negative; every other number, and a negative zero, is a floating-point number, and is refused if it
is past the range of the format. -/
namespace PartyPlan.Json

def isSpace (c : Char) : Bool := c = ' ' || c = '\t' || c = '\n' || c = '\r'

def skipSpace (cs : List Char) : List Char := cs.dropWhile isSpace

def hexValue? (c : Char) : Option Nat :=
  if c.isDigit then some (c.toNat - '0'.toNat)
  else if 'a' ≤ c ∧ c ≤ 'f' then some (c.toNat - 'a'.toNat + 10)
  else if 'A' ≤ c ∧ c ≤ 'F' then some (c.toNat - 'A'.toNat + 10)
  else none

def hexNumber? (cs : List Char) : Option Nat :=
  cs.foldlM (fun n c => (hexValue? c).map (16 * n + ·)) 0

def charOfCode? (n : Nat) : Option Char := if n.isValidChar then some (Char.ofNat n) else none

def shortEscape? : Char → Option Char
  | '"' => some '"'
  | '\\' => some '\\'
  | '/' => some '/'
  | 'b' => some (Char.ofNat 8)
  | 'f' => some (Char.ofNat 12)
  | 'n' => some '\n'
  | 'r' => some '\r'
  | 't' => some '\t'
  | _ => none

/-- The second half of a surrogate pair, after its first half. -/
def readLowHalf (high : Nat) : List Char → Option (Char × List Char)
  | '\\' :: 'u' :: a :: b :: c :: d :: rest =>
    match hexNumber? [a, b, c, d] with
    | none => none
    | some low =>
      if 0xDC00 ≤ low ∧ low < 0xE000 then
        (charOfCode? (0x10000 + (high - 0xD800) * 0x400 + (low - 0xDC00))).map (·, rest)
      else none
  | _ => none

/-- The character that is escaped, after its backslash. Two escaped halves of a surrogate pair make
one character. -/
def readEscape : List Char → Option (Char × List Char)
  | 'u' :: a :: b :: c :: d :: rest =>
    match hexNumber? [a, b, c, d] with
    | none => none
    | some high =>
      if 0xD800 ≤ high ∧ high < 0xDC00 then readLowHalf high rest
      else (charOfCode? high).map (·, rest)
  | c :: rest => (shortEscape? c).map (·, rest)
  | [] => none

theorem rest_of_map {o : Option Char} {rest rest' : List Char} {c : Char}
    (h : o.map (·, rest) = some (c, rest')) : rest' = rest := by
  obtain ⟨_, _, he⟩ := Option.map_eq_some_iff.mp h
  cases he
  rfl

theorem length_readLowHalf {high : Nat} {cs rest : List Char} {c : Char}
    (h : readLowHalf high cs = some (c, rest)) : rest.length < cs.length := by
  unfold readLowHalf at h
  split at h
  · split at h
    · cases h
    · split at h
      · rw [rest_of_map h]
        simp only [List.length_cons]
        omega
      · cases h
  · cases h

theorem length_readEscape {cs rest : List Char} {c : Char} (h : readEscape cs = some (c, rest)) :
    rest.length < cs.length := by
  unfold readEscape at h
  split at h
  · split at h
    · cases h
    · split at h
      · have := length_readLowHalf h
        simp only [List.length_cons]
        omega
      · rw [rest_of_map h]
        simp only [List.length_cons]
        omega
  · rw [rest_of_map h, List.length_cons]
    omega
  · cases h

/-- The rest of a quoted text, after its opening quote. -/
def readQuoted (cs done : List Char) : Option (String × List Char) :=
  match cs with
  | '"' :: rest => some (String.ofList done.reverse, rest)
  | '\\' :: rest =>
    match _h : readEscape rest with
    | some (c, rest') => readQuoted rest' (c :: done)
    | none => none
  | c :: rest => if c.toNat < 32 then none else readQuoted rest (c :: done)
  | [] => none
termination_by cs.length
decreasing_by
  · exact Nat.lt_succ_of_lt (length_readEscape _h)
  · exact Nat.lt_succ_self rest.length

def isNumeral (c : Char) : Bool := c.isDigit || c = '-' || c = '+' || c = '.' || c = 'e' || c = 'E'

def splitMinus : List Char → Bool × List Char
  | '-' :: ds => (true, ds)
  | ds => (false, ds)

/-- Digits start with a zero only if that is all. -/
def isWhole (ds : List Char) : Bool := ds = ['0'] || !ds.isEmpty && ds.head? ≠ some '0'

/-- After a point there is a digit. -/
def isPointed : List Char → Bool
  | '.' :: c :: _ => c.isDigit
  | ['.'] => false
  | _ => true

def finite? (negative : Bool) (x : Float) : Option Json :=
  if x.isInf then none else some (float (if negative then -x else x))

def whole? (negative : Bool) (n : Nat) : Option Json :=
  if negative ∧ 0 < n ∧ n ≤ signedLimit64 then some (int (-n))
  else if ¬ negative ∧ n < limit64 then some (int n)
  else finite? negative (Decimal.ofParts n 0)

def number? (cs : List Char) : Option Json :=
  let (negative, ds) := splitMinus cs
  let digits := ds.takeWhile Char.isDigit
  let rest := ds.dropWhile Char.isDigit
  if !isWhole digits then none
  else if rest.isEmpty then whole? negative (Decimal.digitValue digits)
  else if isPointed rest then (Decimal.readMagnitude ds).bind (finite? negative)
  else none

mutual

/-- Read one value. `fuel` bounds the calls; the length of the text suffices. -/
def readValue : Nat → List Char → Option (Json × List Char)
  | 0, _ => none
  | fuel + 1, cs =>
    match skipSpace cs with
    | 'n' :: 'u' :: 'l' :: 'l' :: rest => some (null, rest)
    | 't' :: 'r' :: 'u' :: 'e' :: rest => some (bool true, rest)
    | 'f' :: 'a' :: 'l' :: 's' :: 'e' :: rest => some (bool false, rest)
    | '"' :: rest => (readQuoted rest []).map fun (s, rest) => (str s, rest)
    | '[' :: rest =>
      match skipSpace rest with
      | ']' :: rest => some (arr [], rest)
      | _ => (readItems fuel rest).map fun (items, rest) => (arr items, rest)
    | '\x7b' :: rest =>
      match skipSpace rest with
      | '\x7d' :: rest => some (obj [], rest)
      | _ => (readFields fuel rest).map fun (fields, rest) => (obj fields, rest)
    | cs => (number? (cs.takeWhile isNumeral)).map fun v => (v, cs.dropWhile isNumeral)

def readItems : Nat → List Char → Option (List Json × List Char)
  | 0, _ => none
  | fuel + 1, cs =>
    match readValue fuel cs with
    | none => none
    | some (item, rest) =>
      match skipSpace rest with
      | ',' :: rest => (readItems fuel rest).map fun (items, rest) => (item :: items, rest)
      | ']' :: rest => some ([item], rest)
      | _ => none

def readFields : Nat → List Char → Option (List (String × Json) × List Char)
  | 0, _ => none
  | fuel + 1, cs =>
    match skipSpace cs with
    | '"' :: rest =>
      match readQuoted rest [] with
      | none => none
      | some (name, rest) =>
        match skipSpace rest with
        | ':' :: rest =>
          match readValue fuel rest with
          | none => none
          | some (value, rest) =>
            match skipSpace rest with
            | ',' :: rest =>
              (readFields fuel rest).map fun (fields, rest) => ((name, value) :: fields, rest)
            | '\x7d' :: rest => some ([(name, value)], rest)
            | _ => none
        | _ => none
    | _ => none

end

/-- Read a text that holds one value and nothing else. -/
def read? (s : String) : Option Json :=
  match readValue (s.length + 1) s.toList with
  | some (value, rest) => if (skipSpace rest).isEmpty then some value else none
  | none => none

end PartyPlan.Json
