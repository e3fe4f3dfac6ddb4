import LoxLang.Token.Basic

namespace LoxLang

/-- The identity of an occurrence of a name. Identities are drawn one after another for the whole process. A counter
in a word of 64 bits would come back to its start after 2 ^ 64 draws. Each draw takes an occurrence that has been read,
so an input would have to hold that many of them, which none can; the numbers here have no bound. -/
abbrev OccurrenceId := Nat

inductive Literal where
  | number (value : Number)
  | string (text : String)
  | bool (value : Bool)
  | nil
deriving DecidableEq, Repr

inductive Expr where
  | literal (value : Literal)
  /-- An expression in parentheses. -/
  | group (inner : Expr)
  | unary (operator : Token) (operand : Expr)
  | binary (left : Expr) (operator : Token) (right : Expr)
  /-- Operators that may leave their right side unevaluated. -/
  | logical (left : Expr) (operator : Token) (right : Expr)
  | ternary (condition thenBranch elseBranch : Expr)
  | variable (id : OccurrenceId) (name : Token)
  | assign (id : OccurrenceId) (name : Token) (value : Expr)
  | this (id : OccurrenceId) (keyword : Token)
  /-- A call, located by its closing parenthesis. -/
  | call (callee : Expr) (paren : Token) (arguments : List Expr)
  | get (object : Expr) (name : Token)
  | set (object : Expr) (name : Token) (value : Expr)
deriving Repr

mutual

inductive Stmt where
  | expression (value : Expr)
  | print (value : Expr)
  | var (name : Token) (initializer : Option Expr)
  | block (body : List Stmt)
  | branch (condition : Expr) (thenBranch : Stmt) (elseBranch : Option Stmt)
  | loop (condition : Expr) (body : Stmt)
  | break (keyword : Token)
  | return (keyword : Token) (value : Option Expr)
  | function (declaration : Function)
  | class (name : Token) (methods : List Function)

/-- A declared function or method. -/
inductive Function where
  | mk (name : Token) (parameters : List Token) (body : List Stmt)

end

namespace Function

def name : Function → Token
  | mk name _ _ => name

def parameters : Function → List Token
  | mk _ parameters _ => parameters

def body : Function → List Stmt
  | mk _ _ body => body

/-- The method that runs when a class is called. -/
def isInitializer (f : Function) : Bool := f.name.lexeme == "init"

end Function

end LoxLang
