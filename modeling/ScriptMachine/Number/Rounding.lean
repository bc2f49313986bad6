/-! # Rounding quotients

Quotients of natural numbers, rounded to the nearest integer, and the power of
two in front of them. -/

namespace ScriptMachine

/-- The quotient `num / den` rounded to the nearest integer, ties to even. -/
def roundDiv (num den : Nat) : Nat :=
  let quotient := num / den
  let twice := 2 * (num % den)
  if twice < den then quotient
  else if den < twice then quotient + 1
  else if quotient % 2 = 0 then quotient
  else quotient + 1

/-- The exponent of the largest power of two that is at most `num / den`. The
difference of the exponents of the two numbers is at most one too large. -/
def binaryExponent (num den : Nat) : Int :=
  let guess : Int := num.log2 - den.log2
  if den * Nat.pow 2 guess.toNat ≤ num * Nat.pow 2 (-guess).toNat then guess else guess - 1

end ScriptMachine
