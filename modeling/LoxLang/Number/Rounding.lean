import LoxLang.Number.Basic

namespace LoxLang.Number

/-- The natural nearest to `num / den`; a half goes to the even neighbour. -/
def roundEven (num den : Nat) : Nat :=
  let low := num / den
  let twice := 2 * (num % den)
  if twice < den then low
  else if den < twice then low + 1
  else low + low % 2

/-- The steps between magnitudes near a value of `u` units are `twoPow (stepLog u)` units wide. -/
def stepLog (u : Nat) : Nat := u.log2 - 52

/-- The magnitude nearest to `num / den`. Rounding up past the last significand of a binade lands on the
first of the next, as magnitudes count through; from half a step below the end of the last binade on it is
infinity. -/
def nearestMagnitude (num den : Nat) : Nat :=
  let step := stepLog (num * scale / den)
  min infinite (step * binade + roundEven (num * scale) (den * twoPow step))

/-- A decimal: `digits * 10 ^ exponent`. -/
structure Decimal where
  digits : Nat
  exponent : Int
deriving DecidableEq, Repr

namespace Decimal

/-- The decimal's value is `numerator / denominator`. -/
def numerator (d : Decimal) : Nat := d.digits * tenPow d.exponent.toNat

def denominator (d : Decimal) : Nat := tenPow (-d.exponent).toNat

/-- The magnitude a decimal reads as. -/
def magnitude (d : Decimal) : Nat := nearestMagnitude d.numerator d.denominator

end Decimal

/-- The value of a list of decimal digits. -/
def ofDigits (cs : List Char) : Nat := cs.foldl (fun n c => 10 * n + (c.toNat - '0'.toNat)) 0

/-- Read digits with a fraction: the nearest number. -/
def read (whole fraction : List Char) : Number :=
  ofMagnitude (nearestMagnitude (ofDigits (whole ++ fraction)) (tenPow fraction.length))

end LoxLang.Number
