import ScriptMachine.Number.Rounding

/-! # Double-precision numbers taken apart

A finite double is a sign and an exact value `mantissa * 2 ^ exponent` with a
mantissa below 2^53 and an exponent of at least -1074 (`Binary64.ofBits`,
`Binary64.toBits`). Whatever has to be exact about numbers is computed on this
form: the double nearest to a fraction, the remainder of a division, the integer
a number stands for, and the decimal digits it is written with. -/

namespace ScriptMachine

/-- A double-precision number, taken apart. -/
inductive Binary64 where
  | nan
  | infinite (negative : Bool)
  | finite (negative : Bool) (mantissa : Nat) (exponent : Int)
  deriving DecidableEq, Repr, Inhabited

namespace Binary64

/-- The least exponent. -/
def minExponent : Int := -1074

/-- The largest exponent. -/
def maxExponent : Int := 971

/-- Reads the 64 bits: sign, eleven bits of biased exponent, 52 of fraction.
Exponent zero marks a number without the implicit leading one. -/
def ofBits (bits : UInt64) : Binary64 :=
  let n := bits.toNat
  let negative : Bool := n / Nat.pow 2 63 = 1
  let biased : Nat := n / Nat.pow 2 52 % Nat.pow 2 11
  let fraction := n % Nat.pow 2 52
  if biased = 2047 then
    if fraction = 0 then .infinite negative else .nan
  else if biased = 0 then .finite negative fraction minExponent
  else .finite negative (Nat.pow 2 52 + fraction) ((biased : Int) - 1075)

def ofFloat (x : Float) : Binary64 := ofBits x.toBits

/-- The bits of a finite number whose mantissa is below 2^53 and whose exponent
is at least -1074 and small enough. The mantissa moves up until it has its
leading one or the exponent is the least. -/
def finiteBits (negative : Bool) (mantissa : Nat) (exponent : Int) : Nat :=
  let shift := min (52 - mantissa.log2) (exponent - minExponent).toNat
  let significand := mantissa * Nat.pow 2 shift
  let magnitude :=
    if significand < Nat.pow 2 52 then significand
    else (exponent - shift + 1075).toNat * Nat.pow 2 52 + (significand - Nat.pow 2 52)
  (if negative then Nat.pow 2 63 else 0) + magnitude

def toBits : Binary64 → UInt64
  | .nan => 0x7ff8000000000000
  | .infinite negative => if negative then 0xfff0000000000000 else 0x7ff0000000000000
  | .finite negative mantissa exponent => (finiteBits negative mantissa exponent).toUInt64

def toFloat (x : Binary64) : Float := Float.ofBits x.toBits

/-- The double nearest to the fraction `num / den`, a tie going to the even
mantissa. The mantissa has 53 digits unless the exponent is the least; one that
is rounded up to 2^53 moves into the next exponent, and beyond the largest
exponent the result is infinite. -/
def ofRatio (num den : Nat) : Binary64 :=
  if num = 0 then .finite false 0 minExponent
  else
    let exponent := max (binaryExponent num den - 52) minExponent
    let rounded := roundDiv (num * Nat.pow 2 (-exponent).toNat) (den * Nat.pow 2 exponent.toNat)
    let (mantissa, exponent) :=
      if rounded = Nat.pow 2 53 then (Nat.pow 2 52, exponent + 1) else (rounded, exponent)
    if maxExponent < exponent then .infinite false else .finite false mantissa exponent

/-- The remainder of a division truncated toward zero. It is exact and has the
sign of the dividend; an infinite dividend or a zero divisor has none, and an
infinite divisor leaves the dividend as it is. -/
def rem : Binary64 → Binary64 → Binary64
  | .finite s m e, .finite _ m' e' =>
    if m' = 0 then .nan
    else
      let least := min e e'
      .finite s ((m * Nat.pow 2 (e - least).toNat) % (m' * Nat.pow 2 (e' - least).toNat)) least
  | .finite s m e, .infinite _ => .finite s m e
  | _, _ => .nan

/-- The integer a number stands for, if it is one. -/
def toInt? : Binary64 → Option Int
  | .finite negative mantissa exponent =>
    let magnitude? : Option Nat :=
      if 0 ≤ exponent then some (mantissa * Nat.pow 2 exponent.toNat)
      else if mantissa % Nat.pow 2 (-exponent).toNat = 0 then
        some (mantissa / Nat.pow 2 (-exponent).toNat)
      else none
    magnitude?.map fun n => if negative then -(n : Int) else n
  | _ => none

end Binary64

/-- The remainder of a division truncated toward zero. -/
def remainder (a b : Float) : Float := ((Binary64.ofFloat a).rem (.ofFloat b)).toFloat

/-- The quotient rounded down to an integer. -/
def floorQuotient (a b : Float) : Float := (a / b).floor

end ScriptMachine
