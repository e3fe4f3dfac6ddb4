namespace LoxLang.Text.Utf8

/-- Where and why bytes are not UTF-8. -/
structure Error where
  /-- The length of the well-formed part. -/
  start : Nat
  /-- The length of the faulty part; there is none if the bytes only end too early. -/
  length? : Option Nat
deriving DecidableEq, Repr

def Error.message (e : Error) : String :=
  match e.length? with
  | some n => "invalid utf-8 sequence of " ++ toString n ++ " bytes from index " ++ toString e.start
  | none => "incomplete utf-8 byte sequence from index " ++ toString e.start

/-- A character of which the first bytes have been read. -/
structure Pending where
  /-- The bits read so far. -/
  bits : Nat
  /-- Bytes still missing. -/
  missing : Nat
  /-- The bounds of the next byte. -/
  low : Nat
  high : Nat
  /-- Bytes read so far. -/
  seen : Nat
deriving DecidableEq, Repr

/-- What the first byte of a longer character says. The bounds of the second byte rule out longer forms than
needed, surrogates, and what lies beyond the last character. -/
def lead? (b : Nat) : Option Pending :=
  if 0xC2 ≤ b ∧ b ≤ 0xDF then some ⟨b % 0x20, 1, 0x80, 0xBF, 1⟩
  else if b = 0xE0 then some ⟨b % 0x10, 2, 0xA0, 0xBF, 1⟩
  else if b = 0xED then some ⟨b % 0x10, 2, 0x80, 0x9F, 1⟩
  else if 0xE1 ≤ b ∧ b ≤ 0xEF then some ⟨b % 0x10, 2, 0x80, 0xBF, 1⟩
  else if b = 0xF0 then some ⟨b % 0x08, 3, 0x90, 0xBF, 1⟩
  else if 0xF1 ≤ b ∧ b ≤ 0xF3 then some ⟨b % 0x08, 3, 0x80, 0xBF, 1⟩
  else if b = 0xF4 then some ⟨b % 0x08, 3, 0x80, 0x8F, 1⟩
  else none

/-- One more byte of a character. -/
def Pending.add (p : Pending) (b : Nat) : Pending :=
  ⟨p.bits * 0x40 + b % 0x40, p.missing - 1, 0x80, 0xBF, p.seen + 1⟩

/-- The characters of bytes of which the first stands at an index, perhaps in the middle of a character. -/
def decodeFrom (index : Nat) : Option Pending → List UInt8 → Except Error (List Char)
  | none, [] => .ok []
  | some p, [] => .error ⟨index - p.seen, none⟩
  | none, b :: bs =>
    if b.toNat < 0x80 then (Char.ofNat b.toNat :: ·) <$> decodeFrom (index + 1) none bs
    else
      match lead? b.toNat with
      | some p => decodeFrom (index + 1) (some p) bs
      | none => .error ⟨index, some 1⟩
  | some p, b :: bs =>
    if p.low ≤ b.toNat ∧ b.toNat ≤ p.high then
      let p := p.add b.toNat
      if p.missing = 0 then (Char.ofNat p.bits :: ·) <$> decodeFrom (index + 1) none bs
      else decodeFrom (index + 1) (some p) bs
    else .error ⟨index - p.seen, some p.seen⟩

/-- The characters of bytes. Only the shortest form of a character is accepted, and no surrogates. -/
def decode (bytes : List UInt8) : Except Error (List Char) := decodeFrom 0 none bytes

end LoxLang.Text.Utf8
