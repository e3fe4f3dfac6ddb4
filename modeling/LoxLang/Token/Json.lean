import LoxLang.Token.Basic
import LoxLang.Text.Quoted

namespace LoxLang.Token

open Text.Quoted

/-- A kind as a JSON value: its name, or an object with the name and the literal of those that carry one. -/
def Kind.json (kind : Kind) : List Char :=
  match kind with
  | .string text => '\x7b' :: encode kind.name.toList ++ ':' :: encode text.toList ++ ['\x7d']
  | .number value => '\x7b' :: encode kind.name.toList ++ ':' :: value.jsonText ++ ['\x7d']
  | _ => encode kind.name.toList

/-- One member of an object. -/
def member (key : String) (value : List Char) : List Char := encode key.toList ++ ':' :: value

/-- A token as an object on one line. -/
def json (t : Token) : List Char :=
  '\x7b' :: member "token_type" t.kind.json ++ ',' :: member "lexeme" (encode t.lexeme.toList) ++
    ',' :: member "line" (Number.digitsOf t.line) ++ ['\x7d']

end LoxLang.Token
