import PartyPlan.Decimal.Shortest

/-! Layout of decimals as text. -/
namespace PartyPlan.Decimal

/-- The decisions a number format takes. A number below `10^e` and not below `10^(e-1)` is written
with a point and no exponent when `positional e` holds. -/
structure Layout where
  positional : Int → Bool
  wholePoint : Bool

/-- No exponent, and nothing after a whole number. -/
def Layout.plain : Layout := ⟨fun _ => true, false⟩

/-- A point in every number, and an exponent outside of `10^-5` to `10^16`. -/
def Layout.pointed : Layout := ⟨fun e => decide (-5 < e) && decide (e ≤ 16), true⟩

def zeros (n : Nat) : String := String.ofList (List.replicate n '0')

/-- Lay out digits with the point after the first `e` of them. -/
def Layout.place (l : Layout) (ds : List Char) (e : Int) : String :=
  let n : Int := ds.length
  if e ≤ 0 then "0." ++ zeros (-e).toNat ++ String.ofList ds
  else if e < n then String.ofList (ds.take e.toNat) ++ "." ++ String.ofList (ds.drop e.toNat)
  else String.ofList ds ++ zeros (e - n).toNat ++ (if l.wholePoint then ".0" else "")

/-- Lay out digits with one of them before the point and a power of ten after. -/
def scientific (ds : List Char) (e : Int) : String :=
  String.ofList (ds.take 1) ++
    (if 1 < ds.length then "." ++ String.ofList (ds.drop 1) else "") ++ "e" ++ toString (e - 1)

def Layout.digits (l : Layout) (d : Digits) : String :=
  if d.digits = 0 then if l.wholePoint then "0.0" else "0"
  else
    let ds := Nat.toDigits 10 d.digits
    let e := d.exponent + ds.length
    if l.positional e then l.place ds e else scientific ds e

/-- The text of a number; an infinity or no number has its usual name. -/
def Layout.float (l : Layout) (x : Float) : String :=
  match Binary64.ofFloat x with
  | .nan => "NaN"
  | .infinite negative => if negative then "-inf" else "inf"
  | .finite negative m q => (if negative then "-" else "") ++ l.digits (shortest m q)

end PartyPlan.Decimal
