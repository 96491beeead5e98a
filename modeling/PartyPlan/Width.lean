/-! The bounds of whole numbers of fixed width. -/
namespace PartyPlan

/-- The least number too large for 64 bits. -/
def limit64 : Nat := 18446744073709551616

/-- The least number too large for 64 bits with a sign; below zero it is the last that fits. -/
def signedLimit64 : Nat := 9223372036854775808

/-- The least number too large for 128 bits. -/
def limit128 : Nat := 340282366920938463463374607431768211456

/-- The least number too large for 128 bits with a sign; below zero it is the last that fits. -/
def signedLimit128 : Nat := 170141183460469231731687303715884105728

theorem signedLimit64_add_self : signedLimit64 + signedLimit64 = limit64 := rfl

end PartyPlan
