import LoxLang.Number.Rounding

namespace LoxLang.Number

/-- Which of two equally near decimals is taken. -/
inductive Tie where
  | upper
  | even
deriving DecidableEq, Repr

/-- The value of magnitude `i` on the grid of `10 ^ p`, rounded down. -/
def floorAt (i : Nat) (p : Int) : Nat :=
  units i * tenPow (-p).toNat / (scale * tenPow p.toNat)

/-- The nearer of `low * 10 ^ p` and `(low + 1) * 10 ^ p` to the value of magnitude `i`. -/
def nearer (tie : Tie) (i low : Nat) (p : Int) : Nat :=
  let value := 2 * units i * tenPow (-p).toNat
  let middle := (2 * low + 1) * (scale * tenPow p.toNat)
  if value < middle then low
  else if middle < value then low + 1
  else match tie with
    | .upper => low + 1
    | .even => low + low % 2

/-- A point of the grid of `10 ^ p` beside the value that reads back as magnitude `i`. -/
def onGrid? (tie : Tie) (i : Nat) (p : Int) : Option Decimal :=
  let low := floorAt i p
  let lowReads := Decimal.magnitude ⟨low, p⟩ == i
  let highReads := Decimal.magnitude ⟨low + 1, p⟩ == i
  if lowReads && highReads then some ⟨nearer tie i low p, p⟩
  else if lowReads then some ⟨low, p⟩
  else if highReads then some ⟨low + 1, p⟩
  else none

/-- A power of ten above the value: `30103 / 100000` is just over the decimal logarithm of two. -/
def topGrid (i : Nat) : Int :=
  ((units i).log2 + 1 - 1074 : Int) * 30103 / 100000 + 1

/-- The exact value as a decimal. -/
def exactDecimal (i : Nat) : Decimal := ⟨units i * Nat.pow 5 1074, -1074⟩

/-- The shortest decimal that reads back. Seventeen digits are enough for every finite magnitude; were none
found among them, the exact value would be the answer. -/
def shortest (tie : Tie) (i : Nat) : Decimal :=
  if i = 0 then ⟨0, 0⟩
  else ((List.range 20).findSome? fun (n : Nat) => onGrid? tie i (topGrid i - n)).getD (exactDecimal i)

end LoxLang.Number
