import LoxLang.Token.Piece
import LoxLang.Diagnostic

namespace LoxLang

/-- What a source yields. -/
inductive Item where
  | token (token : Token)
  | error (error : LexicalError)
deriving DecidableEq, Repr

namespace Item

def token? : Item → Option Token
  | token t => some t
  | error _ => none

def error? : Item → Option LexicalError
  | token _ => none
  | error e => some e

end Item

namespace Piece

def newlines (p : Piece) : Nat := p.text.count '\n'

/-- What a piece that begins on a line yields. A text that is never closed is reported on the last line. -/
def item? (line : Nat) (p : Piece) : Option Item :=
  match p.form with
  | .token kind => some (.token ⟨kind, String.ofList p.text, line⟩)
  | .blank => none
  | .comment => none
  | .stray => some (.error ⟨.unexpectedCharacter, line⟩)
  | .openString => some (.error ⟨.unterminatedString, line + p.newlines⟩)
  | .openComment => some (.error ⟨.unterminatedComment, line + p.newlines⟩)

end Piece

namespace Item

/-- The items of pieces of which the first begins on a line, and the end of the source. -/
def ofPieces (line : Nat) : List Piece → List Item
  | [] => [.token ⟨.finish, "", line⟩]
  | p :: ps => (p.item? line).toList ++ ofPieces (line + p.newlines) ps

/-- Tokens and lexical errors in order, each on a line that the newlines of the pieces before it determine. The last
item is the end of the source. -/
def ofSource (source : String) : List Item := ofPieces 1 (Piece.ofSource source.toList)

end Item

namespace Token

def ofSource (source : String) : List Token := (Item.ofSource source).filterMap Item.token?

end Token

namespace LexicalError

def ofSource (source : String) : List LexicalError := (Item.ofSource source).filterMap Item.error?

end LexicalError

end LoxLang
