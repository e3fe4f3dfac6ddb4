namespace LoxLang

/-- A binary64 number, kept as its bit pattern so that every question about a number is a question about natural
numbers. Without its sign bit a pattern is a *magnitude*: magnitudes are ordered as the values they stand for. -/
structure Number where
  bits : UInt64
deriving DecidableEq, Repr

namespace Number

def twoPow (n : Nat) : Nat := Nat.pow 2 n

def tenPow (n : Nat) : Nat := Nat.pow 10 n

/-- The sign bit on its own. -/
def signBit : Nat := twoPow 63

/-- How many magnitudes share an exponent. -/
def binade : Nat := twoPow 52

/-- The bit pattern without its sign. -/
def magnitude (x : Number) : Nat := x.bits.toNat % signBit

def isNegative (x : Number) : Bool := decide (signBit ≤ x.bits.toNat)

/-- The magnitude of infinity. Finite magnitudes lie below it, those of the NaNs above. -/
def infinite : Nat := 2047 * binade

def isFinite (x : Number) : Bool := decide (x.magnitude < infinite)

def isNaN (x : Number) : Bool := decide (infinite < x.magnitude)

/-- The number of a magnitude, without a sign. -/
def ofMagnitude (i : Nat) : Number := ⟨UInt64.ofNat i⟩

/-- One, counted in the least positive number. -/
def scale : Nat := twoPow 1074

/-- The value of a finite magnitude, counted in the least positive number. -/
def units (i : Nat) : Nat :=
  if i < binade then i else (binade + i % binade) * twoPow (i / binade - 1)

def isZero (x : Number) : Bool := x.magnitude == 0

/-- A finite number without a fractional part. -/
def isWhole (x : Number) : Bool := x.isFinite && units x.magnitude % scale == 0

/-- The integer part of a finite number, without its sign. -/
def wholePart (x : Number) : Nat := units x.magnitude / scale

/-- Arithmetic and comparison are those of binary64. -/
def toFloat (x : Number) : Float := Float.ofBits x.bits

def ofFloat (f : Float) : Number := ⟨f.toBits⟩

def neg (x : Number) : Number := ofFloat (-x.toFloat)

def add (x y : Number) : Number := ofFloat (x.toFloat + y.toFloat)

def sub (x y : Number) : Number := ofFloat (x.toFloat - y.toFloat)

def mul (x y : Number) : Number := ofFloat (x.toFloat * y.toFloat)

def div (x y : Number) : Number := ofFloat (x.toFloat / y.toFloat)

/-- Equality of values: zeros are equal whatever their signs, a NaN equals nothing. -/
def equals (x y : Number) : Bool := x.toFloat == y.toFloat

def less (x y : Number) : Bool := decide (x.toFloat < y.toFloat)

def lessEqual (x y : Number) : Bool := decide (x.toFloat ≤ y.toFloat)

end Number

end LoxLang
