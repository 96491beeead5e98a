/-! Reading a floating-point number from text. -/
namespace PartyPlan.Decimal

def digitValue (cs : List Char) : Nat :=
  cs.foldl (fun n c => 10 * n + (c.toNat - '0'.toNat)) 0

/-- The number nearest to `m · 10^e`. Exponents past the range of the format are cut off before any
power of ten is computed. -/
def ofParts (m : Nat) (e : Int) : Float :=
  let places : Int := (Nat.toDigits 10 m).length
  if m = 0 then 0.0
  else if 400 < e + places then Float.ofScientific 1 false 400
  else if e + places < -400 then 0.0
  else if 0 ≤ e then Float.ofScientific m false e.toNat
  else Float.ofScientific m true (-e).toNat

def splitSign : List Char → Bool × List Char
  | '-' :: cs => (true, cs)
  | '+' :: cs => (false, cs)
  | cs => (false, cs)

/-- The power of ten after the mark `e`; an absent one is zero. -/
def readExponent : List Char → Option Int
  | [] => some 0
  | c :: cs =>
    if c = 'e' ∨ c = 'E' then
      let (negative, ds) := splitSign cs
      if ds ≠ [] ∧ ds.all Char.isDigit then
        some (if negative then -(digitValue ds : Int) else digitValue ds)
      else none
    else none

/-- A number without sign: digits with at most one point among or around them, then perhaps an
exponent. -/
def readMagnitude (cs : List Char) : Option Float :=
  let whole := cs.takeWhile Char.isDigit
  let rest := cs.dropWhile Char.isDigit
  let (part, rest) := match rest with
    | '.' :: more => (more.takeWhile Char.isDigit, more.dropWhile Char.isDigit)
    | _ => ([], rest)
  if whole ++ part = [] then none
  else do
    let e ← readExponent rest
    return ofParts (digitValue (whole ++ part)) (e - part.length)

/-- Read a number: a decimal, or the name of an infinity or of no number in any case. -/
def read? (s : String) : Option Float :=
  let (negative, cs) := splitSign s.toList
  let magnitude :=
    match String.ofList (cs.map Char.toLower) with
    | "inf" | "infinity" => some (1.0 / 0.0)
    | "nan" => some (0.0 / 0.0)
    | _ => readMagnitude cs
  magnitude.map fun x => if negative then -x else x

end PartyPlan.Decimal
