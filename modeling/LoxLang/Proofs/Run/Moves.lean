import LoxLang.Proofs.Run.Telling

namespace LoxLang

/-- A change of the machine. -/
inductive Move where
  | scope (s : ScopeId)
  | loops (depth : Nat)
  | enterLoop
  | leaveLoop
  | openCall
  | closeCall
  | addScope (around : ScopeId)
  | define (s : ScopeId) (name : String) (value : Value)
  | declare (s : ScopeId) (name : String)
  | newObject
  | setField (object : ObjectId) (name : String) (value : Value)
  | readClock
  | print (line : String)

def Move.apply : Move → Machine → Machine
  | scope s, m => { m with scope := s }
  | loops depth, m => { m with loopDepth := depth }
  | enterLoop, m => { m with loopDepth := m.loopDepth + 1 }
  | leaveLoop, m => { m with loopDepth := m.loopDepth - 1 }
  | openCall, m => { m with callDepth := m.callDepth + 1 }
  | closeCall, m => { m with callDepth := m.callDepth - 1 }
  | addScope around, m => { m with store := (m.store.child around).2 }
  | define s name value, m => { m with store := m.store.define s name value }
  | declare s name, m => { m with store := m.store.declare s name }
  | newObject, m => { m with fields := m.fields.push .empty }
  | setField object name value, m =>
    { m with fields := m.fields.modify object fun fields => fields.set name value }
  | readClock, m => { m with readings := m.readings + 1 }
  | print line, m => { m with printed := m.printed.push line }

/-- A change about to be made, with the calls open by then, the innermost first. A call is known by its closing
parenthesis. -/
structure Step where
  calls : List Token
  move : Move
  machine : Machine

def Step.after (t : Step) : Machine := t.move.apply t.machine

/-- Steps that lead from one machine to another. -/
inductive Path : Machine → List Step → Machine → Prop
  | refl (m : Machine) : Path m [] m
  | step (t : Step) {log : List Step} {m : Machine} (rest : Path t.after log m) : Path t.machine (t :: log) m

theorem Path.append {m m' m'' : Machine} {log log' : List Step} (h : Path m log m') (h' : Path m' log' m'') :
    Path m (log ++ log') m'' := by
  induction h with
  | refl m => exact h'
  | step t _ ih => exact .step t (ih h')

/-- A computation that tells its steps, given the calls that are open. -/
def Traced (α : Type) : Type := List Token → Telling Step α

namespace Traced

variable {α β : Type}

instance : Monad Traced where
  pure a := fun _ => pure a
  bind x f := fun calls => x calls >>= fun a => f a calls

/-- A computation that changes nothing. -/
def silent (x : Eval α) : Traced α := fun _ => Telling.silent x

def make (move : Move) : Traced Unit := fun calls m => (.done () (move.apply m), [⟨calls, move, m⟩])

/-- A computation between two changes, of which the second is made whatever way the computation ends. -/
def between (first : Move) (last : Machine → Move) (inner : List Token → List Token) (x : Traced α) : Traced α :=
  fun calls m =>
    match x (inner calls) (first.apply m) with
    | (.done a m', log) =>
      (.done a ((last m).apply m'), ⟨calls, first, m⟩ :: (log ++ [⟨inner calls, last m, m'⟩]))
    | (.failed e m', log) =>
      (.failed e ((last m).apply m'), ⟨calls, first, m⟩ :: (log ++ [⟨inner calls, last m, m'⟩]))
    | (.exhausted, log) => (.exhausted, ⟨calls, first, m⟩ :: log)

def inScope (s : ScopeId) : Traced α → Traced α := between (.scope s) (fun m => .scope m.scope) id

def inLoop : Traced α → Traced α := between .enterLoop (fun _ => .leaveLoop) id

def outsideLoops : Traced α → Traced α := between (.loops 0) (fun m => .loops m.loopDepth) id

/-- Inside, the call is open too. -/
def inCall (paren : Token) : Traced α → Traced α := between .openCall (fun _ => .closeCall) (paren :: ·)

def childScope (s : ScopeId) : Traced ScopeId := do
  let child ← silent (Eval.read fun m => m.store.next)
  make (.addScope s)
  pure child

def newObject : Traced ObjectId := do
  let id ← silent (Eval.read fun m => m.fields.size)
  make .newObject
  pure id

def readClock (clock : Clock) : Traced Number := do
  let time ← silent (Eval.read fun m => clock m.readings)
  make .readClock
  pure time

def assign (f : Store → Except AccessError ScopeId) (name : Token) (value : Value) : Traced Unit := fun calls m =>
  match f m.store with
  | .ok s => make (.define s name.lexeme value) calls m
  | .error e => (.failed ⟨e.cause name.lexeme, name.line⟩ m, [])

/-- Each change is a step. -/
def changes : Changes Traced where
  look := silent
  childScope := childScope
  define s name value := make (.define s name value)
  declare s name := make (.declare s name)
  assign := assign
  newObject := newObject
  setField object name value := make (.setField object name value)
  print line := make (.print line)

def operations (setting : Setting) : Operations Traced where
  toChanges := changes
  readClock := readClock setting.clock
  readName _ id name := silent (Eval.readName setting id name)
  assignName := changes.assignName setting
  property := changes.property
  construct _ x := x
  inScope := inScope
  inLoop := inLoop
  outsideLoops := outsideLoops
  inCall arity arguments paren x := do
    silent (Eval.checkCall arity arguments paren)
    inCall paren x
  turns := Operations.repeated (silent Eval.exhausted)

def evaluate (setting : Setting) (fuel : Nat) (e : Expr) : Traced Value := (operations setting).evaluate fuel e

def execute (setting : Setting) (fuel : Nat) (s : Stmt) : Traced Flow := (operations setting).execute fuel s

def call (setting : Setting) (fuel : Nat) (callee : Value) (arguments : List Value) (paren : Token) : Traced Value :=
  (operations setting).call fuel callee arguments paren

def run (setting : Setting) (fuel : Nat) (f : Closure) (arguments : List Value) : Traced Value :=
  (operations setting).run fuel f arguments

def runAll (setting : Setting) (fuel : Nat) (program : List Stmt) : Traced Unit :=
  Operations.runAll (execute setting fuel) program

/-- The steps of both computations, one after the other; an error or the end of fuel leaves out the second. -/
theorem bind_done {x : Traced α} {f : α → Traced β} {calls : List Token} {m m' : Machine} {a : α} {log : List Step}
    (h : x calls m = (.done a m', log)) : (x >>= f) calls m = ((f a calls m').1, log ++ (f a calls m').2) :=
  Telling.bind_done h

theorem bind_failed {x : Traced α} {f : α → Traced β} {calls : List Token} {m m' : Machine} {e : RuntimeError}
    {log : List Step} (h : x calls m = (.failed e m', log)) : (x >>= f) calls m = (.failed e m', log) :=
  Telling.bind_failed h

theorem bind_exhausted {x : Traced α} {f : α → Traced β} {calls : List Token} {m : Machine} {log : List Step}
    (h : x calls m = (.exhausted, log)) : (x >>= f) calls m = (.exhausted, log) :=
  Telling.bind_exhausted h

end Traced

end LoxLang
