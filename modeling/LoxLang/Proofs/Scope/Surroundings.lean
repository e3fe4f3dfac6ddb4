import LoxLang.Tree.Occurrence
import LoxLang.Binding

namespace LoxLang

/-- The names that a statement declares in the scope it stands in. Branches and loops open no scopes. -/
def Stmt.declared : Stmt → List String
  | .var name _ => [name.lexeme]
  | .function f => [f.name.lexeme]
  | .class name _ => [name.lexeme]
  | .branch _ thenBranch none => thenBranch.declared
  | .branch _ thenBranch (some elseBranch) => thenBranch.declared ++ elseBranch.declared
  | .loop _ body => body.declared
  | _ => []

namespace Scoping

/-- What has a body of its own. -/
inductive Routine where
  | function
  | method
  | initializer
deriving DecidableEq, Repr

namespace Routine

def ofMethod (f : Function) : Routine := if f.isInitializer then initializer else method

def body : Routine → Binding.Body
  | function => .function
  | method => .method
  | initializer => .initializer

end Routine

inductive Construct.Form where
  | block
  /-- A body and its parameters share one scope. -/
  | body (routine : Routine) (parameters : List Token)
  /-- Around the methods of a class is a hidden scope. -/
  | methods

namespace Construct.Form

/-- The names that the scope has from the start. -/
def names : Form → List String
  | block => []
  | body _ parameters => parameters.map Token.lexeme
  | methods => ["this"]

def routine? : Form → Option Routine
  | body routine _ => some routine
  | _ => none

def isClass : Form → Bool
  | methods => true
  | _ => false

end Construct.Form

/-- A construct that opens a scope around a place, with the statements that stand in it before the place. -/
structure Construct where
  form : Construct.Form
  before : List Stmt

namespace Construct

/-- The names declared in the scope before the place. -/
def names (c : Construct) : List String := c.form.names ++ c.before.flatMap Stmt.declared

/-- Constructs around what follows a statement. At the top level no names are kept. -/
def after (s : Stmt) : List Construct → List Construct
  | [] => []
  | c :: cs => { c with before := c.before ++ [s] } :: cs

/-- The body that encloses a place most closely. -/
def routine? (cs : List Construct) : Option Routine := cs.findSome? fun c => c.form.routine?

def inClass (cs : List Construct) : Bool := cs.any fun c => c.form.isClass

/-- The place, as far as a walk is told of it. -/
def place (cs : List Construct) : Binding.Place :=
  ⟨match routine? cs with
    | some routine => routine.body
    | none => .topLevel, inClass cs⟩

end Construct

/-- What stands around a place of a program: the constructs that open scopes, from the inside out. The rules on
declarations, reads, `return` and `this`, and the distances of names, are told by that alone, whoever walks over the
program. -/
structure Surroundings where
  constructs : List Construct
  /-- The variable in whose initializer the place is. -/
  initializing : Option Token

namespace Surroundings

/-- The names in the scopes around a place, the innermost first. A variable counts from its own name on. -/
def scopes (S : Surroundings) : List (List String) :=
  match S.constructs with
  | [] => []
  | c :: cs => (c.names ++ (S.initializing.map Token.lexeme).toList) :: cs.map Construct.names

/-- The number of scopes outward to the first that has the name. -/
def distance? (S : Surroundings) (name : String) : Option Nat := S.scopes.findIdx? (·.contains name)

end Surroundings

/-- What the rules on names, `return` and `this` are about. -/
inductive Mention.Form where
  | declaration
  | variable (id : OccurrenceId)
  | assign (id : OccurrenceId)
  | this (id : OccurrenceId)
  | return (hasValue : Bool)
deriving DecidableEq, Repr

structure Mention where
  form : Mention.Form
  token : Token
  surroundings : Surroundings

namespace Mention

def occurrence? (m : Mention) : Option Occurrence :=
  match m.form with
  | .variable id => some ⟨.variable, id, m.token⟩
  | .assign id => some ⟨.assign, id, m.token⟩
  | .this id => some ⟨.this, id, m.token⟩
  | _ => none

/-- The five rules. -/
inductive Breaks : Mention → BindingError.Cause → Prop
  | redeclared {name : Token} {c : Construct} {cs : List Construct} {x : Option Token} (h : name.lexeme ∈ c.names) :
    Breaks ⟨.declaration, name, c :: cs, x⟩ .redeclared
  | readInInitializer {id : OccurrenceId} {name x : Token} {c : Construct} {cs : List Construct}
    (h : x.lexeme = name.lexeme) (hnew : x.lexeme ∉ c.names) :
    Breaks ⟨.variable id, name, c :: cs, some x⟩ .readInInitializer
  | returnAtTopLevel {hasValue : Bool} {keyword : Token} {S : Surroundings}
    (h : Construct.routine? S.constructs = none) : Breaks ⟨.return hasValue, keyword, S⟩ .returnAtTopLevel
  | returnFromInitializer {keyword : Token} {S : Surroundings}
    (h : Construct.routine? S.constructs = some .initializer) :
    Breaks ⟨.return true, keyword, S⟩ .returnFromInitializer
  | thisOutsideClass {id : OccurrenceId} {keyword : Token} {S : Surroundings}
    (h : Construct.inClass S.constructs = false) : Breaks ⟨.this id, keyword, S⟩ .thisOutsideClass

end Mention

end Scoping

open Scoping

mutual

/-- The mentions in an expression. The right side of an assignment comes before its target. -/
def Expr.mentions (S : Surroundings) : Expr → List Mention
  | .literal _ => []
  | .group inner => inner.mentions S
  | .unary _ operand => operand.mentions S
  | .binary left _ right => left.mentions S ++ right.mentions S
  | .logical left _ right => left.mentions S ++ right.mentions S
  | .ternary condition thenBranch elseBranch =>
    condition.mentions S ++ thenBranch.mentions S ++ elseBranch.mentions S
  | .variable id name => [⟨.variable id, name, S⟩]
  | .assign id name value => value.mentions S ++ [⟨.assign id, name, S⟩]
  | .this id keyword => [⟨.this id, keyword, S⟩]
  | .call callee _ arguments => callee.mentions S ++ Expr.mentionsAll S arguments
  | .get object _ => object.mentions S
  | .set object _ value => value.mentions S ++ object.mentions S

def Expr.mentionsAll (S : Surroundings) : List Expr → List Mention
  | [] => []
  | e :: es => e.mentions S ++ Expr.mentionsAll S es

end

/-- Each parameter is declared after those before it. -/
def Function.parameterMentions (routine : Routine) (cs : List Construct) (before : List Token) :
    List Token → List Mention
  | [] => []
  | p :: ps => ⟨.declaration, p, ⟨.body routine before, []⟩ :: cs, none⟩ ::
      Function.parameterMentions routine cs (before ++ [p]) ps

mutual

def Stmt.mentions (cs : List Construct) : Stmt → List Mention
  | .expression value => value.mentions ⟨cs, none⟩
  | .print value => value.mentions ⟨cs, none⟩
  | .var name none => [⟨.declaration, name, cs, none⟩]
  | .var name (some value) => ⟨.declaration, name, cs, none⟩ :: value.mentions ⟨cs, some name⟩
  | .block body => Stmt.mentionsAll (⟨.block, []⟩ :: cs) body
  | .branch condition thenBranch none => condition.mentions ⟨cs, none⟩ ++ thenBranch.mentions cs
  | .branch condition thenBranch (some elseBranch) =>
    condition.mentions ⟨cs, none⟩ ++ thenBranch.mentions cs ++ elseBranch.mentions (Construct.after thenBranch cs)
  | .loop condition body => condition.mentions ⟨cs, none⟩ ++ body.mentions cs
  | .break _ => []
  | .return keyword none => [⟨.return false, keyword, cs, none⟩]
  | .return keyword (some value) => ⟨.return true, keyword, cs, none⟩ :: value.mentions ⟨cs, none⟩
  | .function f => ⟨.declaration, f.name, cs, none⟩ :: f.mentions .function (Construct.after (.function f) cs)
  | .class name methods => ⟨.declaration, name, cs, none⟩ ::
      Function.mentionsAll (⟨.methods, []⟩ :: Construct.after (.class name methods) cs) methods

def Stmt.mentionsAll (cs : List Construct) : List Stmt → List Mention
  | [] => []
  | s :: ss => s.mentions cs ++ Stmt.mentionsAll (Construct.after s cs) ss

def Function.mentions (routine : Routine) (cs : List Construct) : Function → List Mention
  | .mk _ parameters body => Function.parameterMentions routine cs [] parameters ++
      Stmt.mentionsAll (⟨.body routine parameters, []⟩ :: cs) body

def Function.mentionsAll (cs : List Construct) : List Function → List Mention
  | [] => []
  | f :: fs => f.mentions (.ofMethod f) cs ++ Function.mentionsAll cs fs

end

end LoxLang
