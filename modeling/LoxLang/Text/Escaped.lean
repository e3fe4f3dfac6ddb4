import LoxLang.Text.Combining
import LoxLang.Text.Invisible

namespace LoxLang.Text.Escaped

def isIn (ranges : List (Nat × Nat)) (n : Nat) : Bool := ranges.any fun r => r.1 ≤ n && n ≤ r.2

/-- A character that does not show by itself. -/
def isHidden (c : Char) : Bool := isIn Invisible.ranges c.toNat || isIn Combining.ranges c.toNat

/-- Double quotes and backslashes are escaped by a backslash, hidden characters by their code point. Single quotes
stay as they are. -/
def escape (c : Char) : List Char :=
  if c = '\x00' then ['\\', '0']
  else if c = '\t' then ['\\', 't']
  else if c = '\r' then ['\\', 'r']
  else if c = '\n' then ['\\', 'n']
  else if c = '"' || c = '\\' then ['\\', c]
  else if isHidden c then '\\' :: 'u' :: '\x7b' :: Nat.toDigits 16 c.toNat ++ ['\x7d']
  else [c]

/-- A text between quotes. -/
def quote (text : String) : String := String.ofList ('"' :: text.toList.flatMap escape ++ ['"'])

end LoxLang.Text.Escaped
