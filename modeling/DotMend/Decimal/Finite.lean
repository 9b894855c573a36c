import DotMend.Decimal.Shortest

namespace DotMend.Decimal

/-- Half a step above the largest finite number. It lies between an odd mantissa and the next power of two, so it
rounds up. -/
def finiteLimit : Nat := Nat.pow 2 1024 - Nat.pow 2 970

/-- Whether `digits * 10 ^ exponent` rounds to a finite number. The number of places decides where it can: the
limit has 309 of them. -/
def Digits.isFinite (d : Digits) : Bool :=
  let places : Int := (Nat.toDigits 10 d.digits).length + d.exponent
  if d.digits = 0 ∨ places < 309 then true
  else if 309 < places then false
  else d.digits * Nat.pow 10 d.exponent.toNat < finiteLimit * Nat.pow 10 (-d.exponent).toNat

end DotMend.Decimal
