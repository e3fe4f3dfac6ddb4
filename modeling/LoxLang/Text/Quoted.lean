namespace LoxLang.Text.Quoted

def hexDigit (n : Nat) : Char := Nat.digitChar n

/-- The written form of one character: quote, backslash and the controls are escaped, all else stands as
it is. -/
def escape (c : Char) : List Char :=
  if c = '"' then ['\\', '"']
  else if c = '\\' then ['\\', '\\']
  else if c = '\x08' then ['\\', 'b']
  else if c = '\x0c' then ['\\', 'f']
  else if c = '\n' then ['\\', 'n']
  else if c = '\r' then ['\\', 'r']
  else if c = '\t' then ['\\', 't']
  else if c.toNat < 0x20 then ['\\', 'u', '0', '0', hexDigit (c.toNat / 16), hexDigit (c.toNat % 16)]
  else [c]

/-- The written form of a text, between quotes. -/
def encode (text : List Char) : List Char := '"' :: text.flatMap escape ++ ['"']

end LoxLang.Text.Quoted
