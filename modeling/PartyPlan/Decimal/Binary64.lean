/-! What a 64-bit floating-point number stands for: nothing, an infinity, or `m · 2^q`. -/
namespace PartyPlan.Decimal

/-- The value of a floating-point number. A zero keeps its sign. -/
inductive Binary64 where
  | nan
  | infinite (negative : Bool)
  | finite (negative : Bool) (m : Nat) (q : Int)
deriving DecidableEq

/-- The least number too large for the 52 bits of a fraction. -/
def fractionLimit : Nat := 4503599627370496

/-- Read sign, exponent and fraction off the bits of a number. -/
def Binary64.ofBits (bits : Nat) : Binary64 :=
  let fraction := bits % fractionLimit
  let exponent : Nat := bits / fractionLimit % 2048
  let negative := bits / (2048 * fractionLimit) % 2 == 1
  if exponent = 2047 then if fraction = 0 then .infinite negative else .nan
  else if exponent = 0 then .finite negative fraction (-1074)
  else .finite negative (fraction + fractionLimit) ((exponent : Int) - 1075)

def Binary64.ofFloat (x : Float) : Binary64 := ofBits x.toBits.toNat

/-- A number that is `m · 2^q` and is not zero has, below and above it, the reals nearer to it than
to its neighbours. All three are given in quarters of `2^q`; the lower gap is halved where the
exponent steps down. -/
structure Neighbourhood where
  low : Nat
  mid : Nat
  high : Nat
  closed : Bool
  q : Int
deriving DecidableEq

def Neighbourhood.of (m : Nat) (q : Int) : Neighbourhood :=
  { low := if m = fractionLimit ∧ -1074 < q then 4 * m - 1 else 4 * m - 2
    mid := 4 * m
    high := 4 * m + 2
    closed := m % 2 == 0
    q := q - 2 }

end PartyPlan.Decimal
