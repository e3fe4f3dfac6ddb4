import LoxLang.Tree.Basic
import LoxLang.NameMap
import LoxLang.Diagnostic

namespace LoxLang

namespace Binding

/-- The body that encloses a place most closely. -/
inductive Body where
  | topLevel
  | function
  | method
  | initializer
deriving DecidableEq, Repr

/-- What encloses a place, as far as the rules on `return` and `this` ask. -/
structure Place where
  body : Body
  inClass : Bool
deriving DecidableEq, Repr

/-- A local scope: the names declared so far, and whether their declaration is complete. -/
abbrev Scope := NameMap Bool

/-- A walk over a program in the order of its text. It notes, for every occurrence bound to one of the local scopes
around it, how many scopes outward that is, and reports breaches of the rules on names, `return` and `this`. Global
names are not tracked. -/
structure Walk where
  /-- The local scopes around the current place, the innermost first. -/
  scopes : List Scope
  errors : Array BindingError
  /-- Occurrences bound to a local scope, with the number of scopes outward. -/
  distances : Array (OccurrenceId × Nat)
  /-- Those of them outside all functions. -/
  topLevel : Array OccurrenceId

namespace Walk

def start : Walk := ⟨[], #[], #[], #[]⟩

def report (w : Walk) (cause : BindingError.Cause) (token : Token) : Walk :=
  { w with errors := w.errors.push ⟨cause, token⟩ }

/-- Walk a part of the program inside a scope of its own. -/
def inScope (w : Walk) (scope : Scope) (inner : Walk → Walk) : Walk :=
  let w := inner { w with scopes := scope :: w.scopes }
  { w with scopes := w.scopes.drop 1 }

/-- Make a name known in the innermost scope, once. -/
def declare (w : Walk) (name : Token) : Walk :=
  match w.scopes with
  | [] => w
  | scope :: outer =>
    if scope.contains name.lexeme then w.report .redeclared name
    else { w with scopes := scope.set name.lexeme false :: outer }

/-- Complete the declaration of a name in the innermost scope. -/
def define (w : Walk) (name : Token) : Walk :=
  match w.scopes with
  | [] => w
  | scope :: outer => { w with scopes := scope.set name.lexeme true :: outer }

/-- The name is known in the innermost scope, and its declaration is not complete. -/
def isIncomplete (w : Walk) (name : Token) : Bool :=
  match w.scopes with
  | [] => false
  | scope :: _ => scope.find? name.lexeme == some false

/-- The number of scopes outward to the nearest that knows a name. -/
def distance? (w : Walk) (name : String) : Option Nat :=
  w.scopes.findIdx? fun scope => scope.contains name

/-- Note an occurrence if a local scope knows its name. -/
def note (w : Walk) (place : Place) (id : OccurrenceId) (name : Token) : Walk :=
  match w.distance? name.lexeme with
  | none => w
  | some distance =>
    let w := { w with distances := w.distances.push (id, distance) }
    if place.body = .topLevel then { w with topLevel := w.topLevel.push id } else w

end Walk

mutual

/-- Walk an expression. The right side of an assignment comes before its target. -/
def expr (place : Place) : Expr → Walk → Walk
  | .literal _, w => w
  | .group inner, w => expr place inner w
  | .unary _ operand, w => expr place operand w
  | .binary left _ right, w => expr place right (expr place left w)
  | .logical left _ right, w => expr place right (expr place left w)
  | .ternary condition thenBranch elseBranch, w =>
    expr place elseBranch (expr place thenBranch (expr place condition w))
  | .variable id name, w =>
    let w := if w.isIncomplete name then w.report .readInInitializer name else w
    w.note place id name
  | .assign id name value, w => (expr place value w).note place id name
  | .this id keyword, w =>
    if place.inClass then w.note place id keyword else w.report .thisOutsideClass keyword
  | .call callee _ arguments, w => exprs place arguments (expr place callee w)
  | .get object _, w => expr place object w
  | .set object _ value, w => expr place object (expr place value w)

def exprs (place : Place) : List Expr → Walk → Walk
  | [], w => w
  | e :: es, w => exprs place es (expr place e w)

end

/-- The place in the body of a method. -/
def methodPlace (f : Function) : Place :=
  ⟨if f.isInitializer then .initializer else .method, true⟩

/-- The hidden scope of a class, around all its methods. -/
def thisScope : Scope := NameMap.empty.set "this" true

/-- Report what is wrong with a `return` at a place. -/
def checkReturn (place : Place) (keyword : Token) (hasValue : Bool) (w : Walk) : Walk :=
  let w := if place.body = .topLevel then w.report .returnAtTopLevel keyword else w
  if hasValue && place.body = .initializer then w.report .returnFromInitializer keyword else w

mutual

def stmt (place : Place) : Stmt → Walk → Walk
  | .expression value, w => expr place value w
  | .print value, w => expr place value w
  | .var name none, w => (w.declare name).define name
  | .var name (some value), w => (expr place value (w.declare name)).define name
  | .block body, w => w.inScope .empty (stmts place body)
  | .branch condition thenBranch none, w => stmt place thenBranch (expr place condition w)
  | .branch condition thenBranch (some elseBranch), w =>
    stmt place elseBranch (stmt place thenBranch (expr place condition w))
  | .loop condition body, w => stmt place body (expr place condition w)
  | .break _, w => w
  | .return keyword none, w => checkReturn place keyword false w
  | .return keyword (some value), w => expr place value (checkReturn place keyword true w)
  | .function declaration, w =>
    function ⟨.function, place.inClass⟩ declaration
      ((w.declare declaration.name).define declaration.name)
  | .class name declared, w => ((w.declare name).define name).inScope thisScope (methods declared)

def stmts (place : Place) : List Stmt → Walk → Walk
  | [], w => w
  | s :: ss, w => stmts place ss (stmt place s w)

/-- Parameters and body share one scope. -/
def function (place : Place) : Function → Walk → Walk
  | .mk _ parameters body, w =>
    w.inScope .empty fun w =>
      stmts place body (parameters.foldl (fun w p => (w.declare p).define p) w)

def methods : List Function → Walk → Walk
  | [], w => w
  | f :: fs, w => methods fs (function (methodPlace f) f w)

end

end Binding

/-- What the walk over a program notes. -/
structure Binding where
  distances : List (OccurrenceId × Nat)
  topLevel : List OccurrenceId

namespace Binding

/-- The bindings of a program, or all breaches of the rules in it. -/
def ofProgram (program : List Stmt) : Except (List BindingError) Binding :=
  let w := stmts ⟨.topLevel, false⟩ program .start
  if w.errors.isEmpty then .ok ⟨w.distances.toList, w.topLevel.toList⟩
  else .error w.errors.toList

end Binding

end LoxLang
