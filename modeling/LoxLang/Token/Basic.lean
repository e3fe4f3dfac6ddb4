import LoxLang.Number.Text

namespace LoxLang

/-- Punctuators and operators. -/
inductive Mark where
  | leftParen
  | rightParen
  | leftBrace
  | rightBrace
  | comma
  | dot
  | minus
  | plus
  | semicolon
  | slash
  | star
  | question
  | colon
  | bang
  | bangEqual
  | equal
  | equalEqual
  | greater
  | greaterEqual
  | less
  | lessEqual
deriving DecidableEq, Repr

namespace Mark

def all : List Mark :=
  [leftParen, rightParen, leftBrace, rightBrace, comma, dot, minus, plus, semicolon, slash, star,
    question, colon, bang, bangEqual, equal, equalEqual, greater, greaterEqual, less, lessEqual]

def name : Mark → String
  | leftParen => "LEFT_PAREN"
  | rightParen => "RIGHT_PAREN"
  | leftBrace => "LEFT_BRACE"
  | rightBrace => "RIGHT_BRACE"
  | comma => "COMMA"
  | dot => "DOT"
  | minus => "MINUS"
  | plus => "PLUS"
  | semicolon => "SEMICOLON"
  | slash => "SLASH"
  | star => "STAR"
  | question => "QUESTION"
  | colon => "COLON"
  | bang => "BANG"
  | bangEqual => "BANG_EQUAL"
  | equal => "EQUAL"
  | equalEqual => "EQUAL_EQUAL"
  | greater => "GREATER"
  | greaterEqual => "GREATER_EQUAL"
  | less => "LESS"
  | lessEqual => "LESS_EQUAL"

/-- The mark a character is on its own. -/
def ofChar? : Char → Option Mark
  | '(' => some leftParen
  | ')' => some rightParen
  | '\x7b' => some leftBrace
  | '\x7d' => some rightBrace
  | ',' => some comma
  | '.' => some dot
  | '-' => some minus
  | '+' => some plus
  | ';' => some semicolon
  | '/' => some slash
  | '*' => some star
  | '?' => some question
  | ':' => some colon
  | '!' => some bang
  | '=' => some equal
  | '>' => some greater
  | '<' => some less
  | _ => none

/-- The mark that an equals sign after this one makes of the two. -/
def withEqual? : Mark → Option Mark
  | bang => some bangEqual
  | equal => some equalEqual
  | greater => some greaterEqual
  | less => some lessEqual
  | _ => none

end Mark

/-- The reserved words. -/
inductive Keyword where
  | and_
  | class_
  | else_
  | false_
  | fun_
  | for_
  | if_
  | nil_
  | or_
  | print_
  | return_
  | super_
  | this_
  | true_
  | var_
  | while_
  | break_
deriving DecidableEq, Repr

namespace Keyword

def all : List Keyword :=
  [and_, class_, else_, false_, fun_, for_, if_, nil_, or_, print_, return_, super_, this_, true_,
    var_, while_, break_]

/-- The word itself. -/
def word : Keyword → String
  | and_ => "and"
  | class_ => "class"
  | else_ => "else"
  | false_ => "false"
  | fun_ => "fun"
  | for_ => "for"
  | if_ => "if"
  | nil_ => "nil"
  | or_ => "or"
  | print_ => "print"
  | return_ => "return"
  | super_ => "super"
  | this_ => "this"
  | true_ => "true"
  | var_ => "var"
  | while_ => "while"
  | break_ => "break"

def name : Keyword → String
  | and_ => "AND"
  | class_ => "CLASS"
  | else_ => "ELSE"
  | false_ => "FALSE"
  | fun_ => "FUN"
  | for_ => "FOR"
  | if_ => "IF"
  | nil_ => "NIL"
  | or_ => "OR"
  | print_ => "PRINT"
  | return_ => "RETURN"
  | super_ => "SUPER"
  | this_ => "THIS"
  | true_ => "TRUE"
  | var_ => "VAR"
  | while_ => "WHILE"
  | break_ => "BREAK"

def ofWord? (word : String) : Option Keyword := all.find? (·.word == word)

end Keyword

namespace Token

inductive Kind where
  | mark (mark : Mark)
  | keyword (keyword : Keyword)
  | identifier
  /-- A string literal with its text, the quotes taken off. -/
  | string (text : String)
  | number (value : Number)
  /-- The end of the source. -/
  | finish
deriving DecidableEq, Repr

namespace Kind

def name : Kind → String
  | mark m => m.name
  | keyword k => k.name
  | identifier => "IDENTIFIER"
  | string _ => "STRING"
  | number _ => "NUMBER"
  | finish => "EOF"

/-- The literal a kind carries, as a token's display shows it. -/
def literalText : Kind → String
  | string text => text
  | number value => String.ofList value.tokenText
  | _ => "null"

end Kind

end Token

/-- A token with the text it was read from and the line of that text's first character. -/
structure Token where
  kind : Token.Kind
  lexeme : String
  line : Nat
deriving DecidableEq, Repr

namespace Token

def isMark (m : Mark) (t : Token) : Bool := t.kind == .mark m

def isKeyword (k : Keyword) (t : Token) : Bool := t.kind == .keyword k

def isIdentifier (t : Token) : Bool := t.kind == .identifier

/-- Kind, lexeme and literal on one line. -/
def display (t : Token) : String :=
  t.kind.name ++ " " ++ t.lexeme ++ " " ++ t.kind.literalText

end Token

end LoxLang
