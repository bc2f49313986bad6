import ScriptMachine.Number.Binary64
import ScriptMachine.Number.Significant

/-! # How numbers are written

Numbers are written with up to fourteen significant digits. The decimal point
stands in its place when the leading digit is between 10^-4 and 10^13, and
otherwise an exponent with a sign and at least two digits follows. Zeros at the
end of a fraction are left out, and the point with them when nothing of the
fraction is left. -/

namespace ScriptMachine

/-- Integer digits with the fraction behind a point, its final zeros left out. -/
def writePoint (whole fraction : List Char) : List Char :=
  let kept := (fraction.reverse.dropWhile (· = '0')).reverse
  if kept.isEmpty then whole else whole ++ '.' :: kept

/-- An exponent: a sign and at least two digits. -/
def writeExponent (exponent : Int) : List Char :=
  let digits := Nat.toDigits 10 exponent.natAbs
  (if exponent < 0 then '-' else '+') :: (if digits.length < 2 then '0' :: digits else digits)

namespace Significant

/-- The decimal digits, the leading one first. -/
def digitChars (d : Significant) : List Char := Nat.toDigits 10 d.digits

/-- Whether the decimal is written with an exponent. -/
def isScientific (d : Significant) : Bool := d.exponent < -4 || (precision : Int) ≤ d.exponent

/-- The text of the decimal. -/
def write (d : Significant) : List Char :=
  let digits := d.digitChars
  if d.isScientific then
    writePoint (digits.take 1) (digits.drop 1) ++ 'e' :: writeExponent d.exponent
  else if d.exponent < 0 then
    writePoint ['0'] (List.replicate (d.exponent.natAbs - 1) '0' ++ digits)
  else
    writePoint (digits.take (d.exponent.toNat + 1)) (digits.drop (d.exponent.toNat + 1))

end Significant

/-- The text of a double-precision number. -/
def Binary64.write : Binary64 → List Char
  | .nan => "nan".toList
  | .infinite negative => (if negative then "-inf" else "inf").toList
  | .finite negative mantissa exponent =>
    let magnitude :=
      if mantissa = 0 then ['0'] else (Significant.ofBinary mantissa exponent).write
    if negative then '-' :: magnitude else magnitude

/-- How a number is printed. -/
def formatNumber (x : Float) : String := String.ofList (Binary64.ofFloat x).write

end ScriptMachine
