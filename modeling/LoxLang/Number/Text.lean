import LoxLang.Number.Shortest

namespace LoxLang.Number

/-- The decimal digits of a natural number. -/
def digitsOf (n : Nat) : List Char := Nat.toDigits 10 n

namespace Decimal

/-- Positional notation; a point only where there is a fraction, with a digit on both sides. -/
def positional (d : Decimal) : List Char :=
  let ds := digitsOf d.digits
  if 0 ≤ d.exponent then ds ++ List.replicate d.exponent.toNat '0'
  else
    let places := (-d.exponent).toNat
    let padded := List.replicate (places + 1 - ds.length) '0' ++ ds
    let cut := padded.length - places
    padded.take cut ++ '.' :: padded.drop cut

/-- The exponent of the leading digit. -/
def leadingExponent (d : Decimal) : Int := d.exponent + (digitsOf d.digits).length - 1

/-- One digit before the point, and an exponent with its sign. -/
def scientific (d : Decimal) : List Char :=
  let exponent := d.leadingExponent
  let fraction := (digitsOf d.digits).drop 1
  (digitsOf d.digits).take 1 ++ (if fraction.isEmpty then [] else '.' :: fraction) ++
    'e' :: (if exponent < 0 then '-' else '+') :: digitsOf exponent.natAbs

end Decimal

/-- A text without sign, under the sign of `x`. -/
def signed (x : Number) (text : List Char) : List Char :=
  if x.isNegative then '-' :: text else text

/-- A whole number in full, with one decimal. -/
def wholeText (x : Number) : List Char := digitsOf x.wholePart ++ ['.', '0']

/-- The shortest digits that read back, in positional notation. -/
def plainText (x : Number) : List Char := (shortest .upper x.magnitude).positional

/-- Infinities keep their sign, a NaN has none. -/
def boundless (x : Number) : List Char :=
  if x.isNaN then ['N', 'a', 'N'] else x.signed ['i', 'n', 'f']

/-- A number as a program prints it. -/
def display (x : Number) : List Char :=
  if x.isFinite then x.signed x.plainText else x.boundless

/-- A number in a token's display: whole numbers below `2 ^ 63` in full with one decimal, and zero unsigned. -/
def tokenText (x : Number) : List Char :=
  if x.isWhole && x.wholePart < signBit then
    if x.isZero then x.wholeText else x.signed x.wholeText
  else x.display

/-- A number in a printed tree: whole numbers in full with one decimal. -/
def treeText (x : Number) : List Char :=
  if x.isWhole then x.signed x.wholeText else x.display

/-- A JSON number: always with a fraction or an exponent; positional from `10 ^ -5` to below `10 ^ 16`. What
JSON cannot write is null. -/
def jsonText (x : Number) : List Char :=
  if x.isFinite then
    let d := shortest .even x.magnitude
    x.signed <|
      if d.leadingExponent < -5 || 15 < d.leadingExponent then d.scientific
      else if 0 ≤ d.exponent then d.positional ++ ['.', '0']
      else d.positional
  else ['n', 'u', 'l', 'l']

end LoxLang.Number
