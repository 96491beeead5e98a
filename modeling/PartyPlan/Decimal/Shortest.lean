import PartyPlan.Decimal.Binary64

/-! The shortest decimal that reads back as a given floating-point number: on the grids of one, two,
three digits and so on, the first that has a point in the number's neighbourhood, and of two such
points the nearer. -/
namespace PartyPlan.Decimal

structure Digits where
  digits : Nat
  exponent : Int
deriving DecidableEq

/-- Two natural numbers in the ratio of `10^k · d` to `2^q · x`. -/
def scale (d : Nat) (k : Int) (x : Nat) (q : Int) : Nat × Nat :=
  (d * Nat.pow 10 k.toNat * Nat.pow 2 (-q).toNat, x * Nat.pow 2 q.toNat * Nat.pow 10 (-k).toNat)

/-- Whether `d · 10^k` reads back as the number the neighbourhood belongs to. -/
def Neighbourhood.admits (n : Neighbourhood) (d : Nat) (k : Int) : Bool :=
  let (l, a) := scale d k n.low n.q
  let (b, h) := scale d k n.high n.q
  if n.closed then a ≤ l && b ≤ h else a < l && b < h

/-- The greatest `d` with `d · 10^k` not above the number. -/
def Neighbourhood.floor (n : Neighbourhood) (k : Int) : Nat :=
  let (unit, mid) := scale 1 k n.mid n.q
  mid / unit

/-- Whether the point above is at least as near as the point below on the grid of `10^k`. -/
def Neighbourhood.nearerAbove (n : Neighbourhood) (d : Nat) (k : Int) : Bool :=
  let (twice, mid) := scale (2 * d + 1) k (2 * n.mid) n.q
  twice ≤ mid

/-- The least `e` with the number below `10^e`, sought among `fuel` exponents from `e` down. -/
def Neighbourhood.magnitude (n : Neighbourhood) : Nat → Int → Int
  | 0, e => e
  | fuel + 1, e =>
    let (power, mid) := scale 1 (e - 1) n.mid n.q
    if power ≤ mid then e else magnitude n fuel (e - 1)

/-- A power of ten above the number and at most three above the least: the binary magnitude times
the logarithm of two. -/
def Neighbourhood.bound (n : Neighbourhood) : Int :=
  (Nat.log2 n.mid + n.q) * 30103 / 100000 + 2

/-- Drop zeros at the end of the digits, raising the exponent. -/
def Digits.trim : Nat → Digits → Digits
  | 0, d => d
  | fuel + 1, d =>
    if d.digits ≠ 0 ∧ d.digits % 10 = 0 then trim fuel ⟨d.digits / 10, d.exponent + 1⟩ else d

/-- Try the grids of `17 - left`, … and 17 digits for a number below `10^e`. -/
def Neighbourhood.search (n : Neighbourhood) (e : Int) : Nat → Digits
  | 0 => ⟨n.floor (e - 17), e - 17⟩
  | left + 1 =>
    let k := e - (17 - left : Int)
    let d := n.floor k
    match n.admits d k, n.admits (d + 1) k with
    | true, true => if n.nearerAbove d k then ⟨d + 1, k⟩ else ⟨d, k⟩
    | true, false => ⟨d, k⟩
    | false, true => ⟨d + 1, k⟩
    | false, false => search n e left

/-- The shortest decimal that reads back as `m · 2^q`; an exact tie goes up. -/
def shortest (m : Nat) (q : Int) : Digits :=
  if m = 0 then ⟨0, 0⟩
  else
    let n := Neighbourhood.of m q
    (n.search (n.magnitude 4 n.bound) 17).trim 20

end PartyPlan.Decimal
