import LoxLang.Store

namespace LoxLang

/-- What a clock shows when it is asked for the first time, for the second time and so on, in seconds. -/
abbrev Clock := Nat → Number

/-- A clock that stands still. -/
instance : Coe Number Clock := ⟨fun time _ => time⟩

/-- The state of a run. -/
structure Machine where
  store : Store
  /-- The fields of each object. Functions and classes are objects without fields. -/
  fields : Array (NameMap Value)
  /-- The current scope. -/
  scope : ScopeId
  /-- Loops entered in the body that is running. -/
  loopDepth : Nat
  /-- Calls that are open. -/
  callDepth : Nat
  /-- How often the clock has been asked. -/
  readings : Nat
  /-- The lines printed. -/
  printed : Array String

namespace Machine

/-- The scope of global names. -/
def globals : ScopeId := 0

/-- Nothing has run; the natives are defined. -/
def initial : Machine where
  store := (Store.empty.root.2).define globals Native.clock.name (.native .clock)
  fields := #[]
  scope := globals
  loopDepth := 0
  callDepth := 0
  readings := 0
  printed := #[]

end Machine

namespace Eval

inductive Outcome (α : Type) where
  | done (value : α) (machine : Machine)
  | failed (error : RuntimeError) (machine : Machine)
  | exhausted

end Eval

/-- A computation on the state of a run. It ends with a value or with an error, in a state, or runs out of fuel. -/
def Eval (α : Type) : Type := Machine → Eval.Outcome α

namespace Eval

instance : Monad Eval where
  pure a := fun m => .done a m
  bind x f := fun m =>
    match x m with
    | .done a m => f a m
    | .failed e m => .failed e m
    | .exhausted => .exhausted

variable {α : Type}

def exhausted : Eval α := fun _ => .exhausted

/-- Stop with an error on the line of a token. -/
def fail (cause : RuntimeError.Cause) (token : Token) : Eval α :=
  fun m => .failed ⟨cause, token.line⟩ m

/-- A result that may be an error, raised on the line of a token. -/
def lift (result : Except RuntimeError.Cause α) (token : Token) : Eval α :=
  match result with
  | .ok a => pure a
  | .error cause => fail cause token

/-- A computed part of the state. -/
def read (f : Machine → α) : Eval α := fun m => .done (f m) m

def modify (f : Machine → Machine) : Eval Unit := fun m => .done () (f m)

/-- Put what an inner computation changed back, however it ended. This is how the current scope and the two depths are
kept. -/
def restoring (restore : Machine → Machine) (x : Eval α) : Eval α := fun m =>
  match x m with
  | .done a m => .done a (restore m)
  | .failed e m => .failed e (restore m)
  | .exhausted => .exhausted

/-- Run inside another scope. -/
def inScope (s : ScopeId) (x : Eval α) : Eval α := fun m =>
  let outer := m.scope
  restoring (fun m => { m with scope := outer }) x { m with scope := s }

/-- Run as one loop more. -/
def inLoop (x : Eval α) : Eval α := fun m =>
  restoring (fun m => { m with loopDepth := m.loopDepth - 1 }) x { m with loopDepth := m.loopDepth + 1 }

/-- Run out of sight of all loops entered so far. -/
def outsideLoops (x : Eval α) : Eval α := fun m =>
  let outer := m.loopDepth
  restoring (fun m => { m with loopDepth := outer }) x { m with loopDepth := 0 }

/-- Run as one open call more. -/
def inCall (x : Eval α) : Eval α := fun m =>
  restoring (fun m => { m with callDepth := m.callDepth - 1 }) x { m with callDepth := m.callDepth + 1 }

/-- A scope inside the given one. -/
def childScope (s : ScopeId) : Eval ScopeId := fun m =>
  let (child, store) := m.store.child s
  .done child { m with store := store }

def define (s : ScopeId) (name : String) (value : Value) : Eval Unit :=
  modify fun m => { m with store := m.store.define s name value }

def declare (s : ScopeId) (name : String) : Eval Unit :=
  modify fun m => { m with store := m.store.declare s name }

/-- What a name's cell holds, read by a way of access that may fail. -/
def access (f : Store → Except AccessError Value) (name : Token) : Eval Value := fun m =>
  match f m.store with
  | .ok value => .done value m
  | .error e => .failed ⟨e.cause name.lexeme, name.line⟩ m

/-- Fill a name's cell in the scope that a way of access finds. -/
def assign (f : Store → Except AccessError ScopeId) (name : Token) (value : Value) : Eval Unit := fun m =>
  match f m.store with
  | .ok s => .done () { m with store := m.store.define s name.lexeme value }
  | .error e => .failed ⟨e.cause name.lexeme, name.line⟩ m

/-- Ask the clock. Each time it is asked it has a reading of its own. -/
def readClock (clock : Clock) : Eval Number := fun m =>
  .done (clock m.readings) { m with readings := m.readings + 1 }

def print (line : String) : Eval Unit :=
  modify fun m => { m with printed := m.printed.push line }

/-- A new object. -/
def newObject : Eval ObjectId := fun m =>
  .done m.fields.size { m with fields := m.fields.push .empty }

def field? (object : ObjectId) (name : String) : Eval (Option Value) :=
  read fun m => (m.fields[object]?).bind fun fields => fields.find? name

def setField (object : ObjectId) (name : String) (value : Value) : Eval Unit :=
  modify fun m => { m with fields := m.fields.modify object fun fields => fields.set name value }

end Eval

end LoxLang
