import LoxLang.Eval.Operations
import Std.Data.ExtTreeMap

namespace LoxLang

/-- For occurrences bound to a local scope, how many scopes outward it is. All others are global. -/
abbrev Distances := Std.ExtTreeMap OccurrenceId Nat compare

/-- What does not change during a run. -/
structure Setting where
  distances : Distances
  clock : Clock

/-- Calls that may be open at the same time. -/
def maxCallDepth : Nat := 4096

/-- Assign to an occurrence of a name: in the scope noted for it, or else among the globals. -/
def Changes.assignName {M : Type → Type} [Monad M] (changes : Changes M) (setting : Setting) (id : OccurrenceId)
    (name : Token) (value : Value) : M Unit := do
  match setting.distances[id]? with
  | some distance =>
    let scope ← changes.look (Eval.read Machine.scope)
    changes.assign (·.holderAt scope distance name.lexeme) name value
  | none => changes.assign (·.holder Machine.globals name.lexeme) name value

namespace Eval

/-- Turns of a loop, at most as many as there is fuel. -/
def turns (condition : Eval Bool) (body : Eval Flow) : Nat → Eval Flow
  | 0, _ => .exhausted
  | fuel + 1, m =>
    match condition m with
    | .done false m => .done .normal m
    | .done true m =>
      match body m with
      | .done .normal m => turns condition body fuel m
      | .done .break m => .done .normal m
      | .done (.return value) m => .done (.return value) m
      | .failed e m => .failed e m
      | .exhausted => .exhausted
    | .failed e m => .failed e m
    | .exhausted => .exhausted

/-- The changes themselves. -/
def changes : Changes Eval where
  look := id
  childScope := childScope
  define := define
  declare := declare
  assign := assign
  newObject := newObject
  setField := setField
  print := print

def bindThis (method : Closure) (object : Value) : Eval Closure := changes.bindThis method object

def property (object : ObjectId) (cls : Class) (name : Token) : Eval Value := changes.property object cls name

def closures (scope : ScopeId) (fs : List Function) : Eval (List (String × Closure)) := changes.closures scope fs

def defineAll (scope : ScopeId) (ps : List Token) (vs : List Value) : Eval Unit := changes.defineAll scope ps vs

/-- Read an occurrence of a name: in the scope noted for it, or else among the globals. -/
def readName (setting : Setting) (id : OccurrenceId) (name : Token) : Eval Value := do
  match setting.distances[id]? with
  | some distance =>
    let scope ← read Machine.scope
    access (·.getAt scope distance name.lexeme) name
  | none => access (·.get Machine.globals name.lexeme) name

/-- Assign to an occurrence of a name, in the same way. -/
def assignName (setting : Setting) (id : OccurrenceId) (name : Token) (value : Value) : Eval Unit :=
  changes.assignName setting id name value

/-- Check a call before it is opened: first the number of arguments, then the number of open calls. -/
def checkCall (arity : Nat) (arguments : List Value) (paren : Token) : Eval Unit := do
  if arguments.length ≠ arity then
    fail (.wrongArgumentCount arity arguments.length) paren
  else if maxCallDepth ≤ (← read Machine.callDepth) then
    fail .stackOverflow paren
  else pure ()

/-- Run as one open call more, after the check. -/
def inCheckedCall (arity : Nat) (arguments : List Value) (paren : Token) (x : Eval Value) : Eval Value := do
  checkCall arity arguments paren
  inCall x

/-- The operations on the machine itself. -/
def operations (setting : Setting) : Operations Eval where
  toChanges := changes
  readClock := readClock setting.clock
  readName _ id name := readName setting id name
  assignName := assignName setting
  property := property
  construct _ x := x
  inScope := inScope
  inLoop := inLoop
  outsideLoops := outsideLoops
  inCall := inCheckedCall
  turns := turns

def evaluate (setting : Setting) (fuel : Nat) (e : Expr) : Eval Value := (operations setting).evaluate fuel e

def execute (setting : Setting) (fuel : Nat) (s : Stmt) : Eval Flow := (operations setting).execute fuel s

/-- Call a value with arguments. -/
def call (setting : Setting) (fuel : Nat) (callee : Value) (arguments : List Value) (paren : Token) : Eval Value :=
  (operations setting).call fuel callee arguments paren

/-- Run the body of a function, in a scope inside the one it was declared in. -/
def run (setting : Setting) (fuel : Nat) (f : Closure) (arguments : List Value) : Eval Value :=
  (operations setting).run fuel f arguments

end Eval

end LoxLang
