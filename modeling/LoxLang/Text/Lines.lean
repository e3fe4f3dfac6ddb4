namespace LoxLang.Text.Lines

def newline : UInt8 := 10

def carriageReturn : UInt8 := 13

/-- The line whose bytes, last first, stand before a newline. -/
def finish (reversed : List UInt8) : List UInt8 :=
  match reversed with
  | [] => []
  | b :: bs => if b = carriageReturn then bs.reverse else (b :: bs).reverse

/-- The lines of bytes, the first of which has begun with the bytes given, last first. -/
def splitFrom (reversed : List UInt8) : List UInt8 → List (List UInt8)
  | [] => if reversed.isEmpty then [] else [reversed.reverse]
  | b :: bs => if b = newline then finish reversed :: splitFrom [] bs else splitFrom (b :: reversed) bs

/-- A newline ends a line and belongs to none; a carriage return right before it does not belong to the line either.
Bytes after the last newline are a line of their own, kept as they are. -/
def split (bytes : List UInt8) : List (List UInt8) := splitFrom [] bytes

end LoxLang.Text.Lines
