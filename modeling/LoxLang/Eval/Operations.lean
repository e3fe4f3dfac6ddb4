import LoxLang.Eval.Machine
import LoxLang.Eval.Operators
import LoxLang.Tree.Occurrence

namespace LoxLang

/-- How a statement ends. -/
inductive Flow where
  | normal
  | break
  | return (value : Value)

namespace Eval

/-- The result of a call that has run: an initializer gives the object it was called on. -/
def result (f : Closure) (flow : Flow) : Eval Value :=
  if f.initializes then read fun m => (m.store.getHere? f.scope "this").getD .nil
  else
    match flow with
    | .return value => pure value
    | _ => pure .nil

end Eval

/-- The changes that a run makes, in computations of any kind. -/
structure Changes (M : Type → Type) where
  /-- A look at the machine, which may end the run. -/
  look : {α : Type} → Eval α → M α
  childScope : ScopeId → M ScopeId
  define : ScopeId → String → Value → M Unit
  declare : ScopeId → String → M Unit
  assign : (Store → Except AccessError ScopeId) → Token → Value → M Unit
  newObject : M ObjectId
  setField : ObjectId → String → Value → M Unit
  print : String → M Unit

namespace Changes

variable {M : Type → Type} [Monad M] (changes : Changes M)

/-- The method as a function of its own, in whose scope `this` is the object. -/
def bindThis (method : Closure) (object : Value) : M Closure := do
  let scope ← changes.childScope method.scope
  changes.define scope "this" object
  let id ← changes.newObject
  pure { method with id := id, scope := scope }

/-- A property of an instance: a field, or else a method. -/
def property (object : ObjectId) (cls : Class) (name : Token) : M Value := do
  match ← changes.look (Eval.field? object name.lexeme) with
  | some value => pure value
  | none =>
    match cls.methods.find? name.lexeme with
    | some method => .function <$> changes.bindThis method (.instance object cls)
    | none => changes.look (Eval.fail (.undefinedProperty name.lexeme) name)

/-- The methods of a class declared in a scope. -/
def closures (scope : ScopeId) : List Function → M (List (String × Closure))
  | [] => pure []
  | f :: fs => do
    let id ← changes.newObject
    let rest ← closures scope fs
    pure ((f.name.lexeme, ⟨id, f, scope, f.isInitializer⟩) :: rest)

/-- Bind parameters to arguments. -/
def defineAll (scope : ScopeId) : List Token → List Value → M Unit
  | p :: ps, v :: vs => do
    changes.define scope p.lexeme v
    defineAll scope ps vs
  | _, _ => pure ()

end Changes

/-- What a run does besides following its text, in computations of any kind. -/
structure Operations (M : Type → Type) extends Changes M where
  readClock : M Number
  /-- Read an occurrence of a name. -/
  readName : Occurrence.Form → OccurrenceId → Token → M Value
  assignName : OccurrenceId → Token → Value → M Unit
  property : ObjectId → Class → Token → M Value
  /-- Run the initializer of a new instance, bound to it. -/
  construct : Closure → M Value → M Value
  inScope : ScopeId → M Flow → M Flow
  inLoop : M Flow → M Flow
  outsideLoops : M Flow → M Flow
  /-- Run as one open call more, if a call with the arguments may be opened. -/
  inCall : Nat → List Value → Token → M Value → M Value
  /-- Turns of a loop, at most as many as told. -/
  turns : M Bool → M Flow → Nat → M Flow

namespace Operations

variable {M : Type → Type} [Monad M]

/-- Statements one after another, up to the first that does not end normally. -/
def sequence (step : Stmt → M Flow) : List Stmt → M Flow
  | [] => pure .normal
  | s :: ss => do
    match ← step s with
    | .normal => sequence step ss
    | flow => pure flow

/-- The values of expressions, from left to right. -/
def values (step : Expr → M Value) : List Expr → M (List Value)
  | [] => pure []
  | e :: es => do
    let first ← step e
    let rest ← values step es
    pure (first :: rest)

/-- Turns of a loop, at most as many as told, with `exhausted` for more. -/
def repeated (exhausted : M Flow) (condition : M Bool) (body : M Flow) : Nat → M Flow
  | 0 => exhausted
  | fuel + 1 => do
    if ← condition then
      match ← body with
      | .normal => repeated exhausted condition body fuel
      | .break => pure .normal
      | .return value => pure (.return value)
    else pure .normal

/-- The statements of a program, one after another. At the top level it does not matter how a statement ends, as long
as it is without an error. -/
def runAll (step : Stmt → M Flow) : List Stmt → M Unit
  | [] => pure ()
  | s :: ss => do
    let _ ← step s
    runAll step ss

variable (ops : Operations M)

/-- An expression, given how its parts and the calls it makes are evaluated. -/
def expression (evaluate : Expr → M Value) (call : Value → List Value → Token → M Value) : Expr → M Value
  | .literal value => pure value.value
  | .group inner => evaluate inner
  | .unary operator operand => do
    let x ← evaluate operand
    ops.look (Eval.lift (x.unary operator.kind) operator)
  | .binary left operator right => do
    let x ← evaluate left
    let y ← evaluate right
    ops.look (Eval.lift (Value.binary operator.kind x y) operator)
  | .logical left operator right => do
    let x ← evaluate left
    if x.isTruthy == (operator.kind == .keyword .or_) then pure x
    else evaluate right
  | .ternary condition thenBranch elseBranch => do
    let x ← evaluate condition
    if x.isTruthy then evaluate thenBranch
    else evaluate elseBranch
  | .variable id name => ops.readName .variable id name
  | .this id keyword => ops.readName .this id keyword
  | .assign id name value => do
    let x ← evaluate value
    ops.assignName id name x
    pure x
  | .call callee paren given => do
    let f ← evaluate callee
    let arguments ← values evaluate given
    call f arguments paren
  | .get object name => do
    match ← evaluate object with
    | .instance id cls => ops.property id cls name
    | _ => ops.look (Eval.fail .noProperties name)
  | .set object name value => do
    match ← evaluate object with
    | .instance id _ =>
      let x ← evaluate value
      ops.setField id name.lexeme x
      pure x
    | _ => ops.look (Eval.fail .noFields name)

/-- A statement, given how its parts are run and how many turns a loop may take. -/
def statement (evaluate : Expr → M Value) (execute : Stmt → M Flow) (fuel : Nat) : Stmt → M Flow
  | .expression value => do
    let _ ← evaluate value
    pure .normal
  | .print value => do
    let x ← evaluate value
    ops.print x.display
    pure .normal
  | .var name (some value) => do
    let x ← evaluate value
    ops.define (← ops.look (Eval.read Machine.scope)) name.lexeme x
    pure .normal
  | .var name none => do
    ops.declare (← ops.look (Eval.read Machine.scope)) name.lexeme
    pure .normal
  | .block body => do
    let scope ← ops.childScope (← ops.look (Eval.read Machine.scope))
    ops.inScope scope (sequence execute body)
  | .branch condition thenBranch elseBranch => do
    let x ← evaluate condition
    if x.isTruthy then execute thenBranch
    else
      match elseBranch with
      | some elseBranch => execute elseBranch
      | none => pure .normal
  | .loop condition body => ops.inLoop (ops.turns (Value.isTruthy <$> evaluate condition) (execute body) fuel)
  | .break keyword => do
    if (← ops.look (Eval.read Machine.loopDepth)) = 0 then ops.look (Eval.fail .breakOutsideLoop keyword)
    else pure .break
  | .return _ (some value) => do
    let x ← evaluate value
    pure (.return x)
  | .return _ none => pure (.return .nil)
  | .function declaration => do
    let scope ← ops.look (Eval.read Machine.scope)
    let id ← ops.newObject
    ops.define scope declaration.name.lexeme (.function ⟨id, declaration, scope, false⟩)
    pure .normal
  | .class name declared => do
    let scope ← ops.look (Eval.read Machine.scope)
    ops.declare scope name.lexeme
    let methods ← ops.closures scope declared
    let id ← ops.newObject
    ops.assign (·.holder scope name.lexeme) name (.class ⟨id, name.lexeme, .ofList methods⟩)
    pure .normal

/-- The call of a value, given how the bodies of functions run. -/
def calling (run : Closure → List Value → M Value) (arguments : List Value) (paren : Token) : Value → M Value
  | .native .clock => ops.inCall Native.clock.arity arguments paren (.number <$> ops.readClock)
  | .function f => ops.inCall f.arity arguments paren (run f arguments)
  | .class c => ops.inCall c.arity arguments paren do
    let id ← ops.newObject
    match c.initializer? with
    | some method =>
      let f ← ops.bindThis method (.instance id c)
      ops.construct f do
        let _ ← run f arguments
        pure (.instance id c)
    | none => pure (.instance id c)
  | _ => ops.look (Eval.fail .notCallable paren)

/-- The body of a function, in a scope inside the one it was declared in, given how its statements run. -/
def body (execute : Stmt → M Flow) (f : Closure) (arguments : List Value) : M Value := do
  let scope ← ops.childScope f.scope
  ops.defineAll scope f.declaration.parameters arguments
  let flow ← ops.outsideLoops (ops.inScope scope (sequence execute f.declaration.body))
  ops.look (Eval.result f flow)

mutual

/-- Evaluation with so much fuel. -/
def evaluate : Nat → Expr → M Value
  | 0, _ => ops.look Eval.exhausted
  | fuel + 1, e => ops.expression (evaluate fuel) (call fuel) e

def execute : Nat → Stmt → M Flow
  | 0, _ => ops.look Eval.exhausted
  | fuel + 1, s => ops.statement (evaluate fuel) (execute fuel) fuel s

def call : Nat → Value → List Value → Token → M Value
  | 0, _, _, _ => ops.look Eval.exhausted
  | fuel + 1, callee, arguments, paren => ops.calling (run fuel) arguments paren callee

def run : Nat → Closure → List Value → M Value
  | 0, _, _ => ops.look Eval.exhausted
  | fuel + 1, f, arguments => ops.body (execute fuel) f arguments

end

end Operations

end LoxLang
