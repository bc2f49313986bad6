import ScriptMachine.Number.Rounding

/-! # Rounding to fourteen significant digits

An exact positive fraction is rounded to the nearest number with fourteen
significant decimal digits, a tie going to the even neighbour. The result
`digits * 10 ^ (exponent - 13)` has exactly fourteen digits, so `exponent` is
the place of its leading one. -/

namespace ScriptMachine

/-- The number of decimal digits of a positive number. -/
def decimalLength (n : Nat) : Nat := (Nat.toDigits 10 n).length

/-- The exponent of the largest power of ten that is at most `num / den`. -/
def leadingExponent (num den : Nat) : Int :=
  if den ≤ num then (decimalLength (num / den) : Int) - 1
  else -(decimalLength ((den - 1) / num) : Int)

/-- A decimal with fourteen significant digits and the place of the first. -/
structure Significant where
  digits : Nat
  exponent : Int
  deriving DecidableEq, Repr, Inhabited

namespace Significant

/-- How many digits are kept. -/
def precision : Nat := 14

/-- The fourteen-digit decimal nearest to `num / den`. -/
def ofFraction (num den : Nat) : Significant :=
  let exponent := leadingExponent num den
  let places : Int := precision - 1 - exponent
  let digits := roundDiv (num * Nat.pow 10 places.toNat) (den * Nat.pow 10 (-places).toNat)
  if digits < Nat.pow 10 precision then ⟨digits, exponent⟩
  else ⟨Nat.pow 10 (precision - 1), exponent + 1⟩

/-- The fourteen-digit decimal nearest to `mantissa * 2 ^ exponent`. -/
def ofBinary (mantissa : Nat) (exponent : Int) : Significant :=
  ofFraction (mantissa * Nat.pow 2 exponent.toNat) (Nat.pow 2 (-exponent).toNat)

end Significant

end ScriptMachine
