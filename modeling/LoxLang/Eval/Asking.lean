import LoxLang.Interpreter

namespace LoxLang

/-- A computation that stops wherever it has to know the time. -/
inductive Paused (α : Type) where
  | ended (result : α)
  | asks (next : Number → Paused α)

namespace Paused

variable {α β : Type}

def bind (f : α → Paused β) : Paused α → Paused β
  | ended a => f a
  | asks next => asks fun time => (next time).bind f

/-- The result where a clock answers that has been asked so many times before, and how often it has been asked then. -/
def under (clock : Clock) (readings : Nat) : Paused α → α × Nat
  | ended a => (a, readings)
  | asks next => (next (clock readings)).under clock (readings + 1)

end Paused

/-- A computation on the machine that asks for the time instead of reading a clock. -/
def Asking (α : Type) : Type := Machine → Paused (Eval.Outcome α)

namespace Asking

variable {α β : Type}

/-- Go on where a computation has ended. -/
def goOn (f : α → Asking β) : Eval.Outcome α → Paused (Eval.Outcome β)
  | .done a m => f a m
  | .failed e m => .ended (.failed e m)
  | .exhausted => .ended .exhausted

instance : Monad Asking where
  pure a := fun m => .ended (.done a m)
  bind x f := fun m => (x m).bind (goOn f)

/-- A computation that asks for nothing. -/
def plain (x : Eval α) : Asking α := fun m => .ended (x m)

def readClock : Asking Number := fun m => .asks fun time => .ended (.done time { m with readings := m.readings + 1 })

/-- A computation under a combinator that starts it in the machine told. -/
def within (combinator : Eval α → Eval β) (enter : Machine → Machine) (x : Asking α) : Asking β :=
  fun m => (x (enter m)).bind fun o => .ended (combinator (fun _ => o) m)

def inScope (s : ScopeId) : Asking α → Asking α := within (Eval.inScope s) fun m => { m with scope := s }

def inLoop : Asking α → Asking α := within Eval.inLoop fun m => { m with loopDepth := m.loopDepth + 1 }

def outsideLoops : Asking α → Asking α := within Eval.outsideLoops fun m => { m with loopDepth := 0 }

def inCall : Asking α → Asking α := within Eval.inCall fun m => { m with callDepth := m.callDepth + 1 }

/-- One turn of a loop: how the loop ends, or nothing if it goes on. -/
def turn {M : Type → Type} [Monad M] (condition : M Bool) (body : M Flow) : M (Option Flow) := do
  if ← condition then
    match ← body with
    | .normal => pure none
    | .break => pure (some .normal)
    | .return value => pure (some (.return value))
  else pure (some .normal)

/-- Turns of a loop, at most as many as there is fuel. A turn in which nobody asks for the time needs no stack. -/
def turns (condition : Asking Bool) (body : Asking Flow) : Nat → Asking Flow
  | 0, _ => .ended .exhausted
  | fuel + 1, m =>
    match turn condition body m with
    | .ended (.done none m) => turns condition body fuel m
    | .ended (.done (some flow) m) => .ended (.done flow m)
    | .ended (.failed e m) => .ended (.failed e m)
    | .ended .exhausted => .ended .exhausted
    | .asks next => .asks fun time => (next time).bind <| goOn fun
      | none => turns condition body fuel
      | some flow => pure flow

def changes : Changes Asking where
  look := plain
  childScope s := plain (Eval.childScope s)
  define s name value := plain (Eval.define s name value)
  declare s name := plain (Eval.declare s name)
  assign f name value := plain (Eval.assign f name value)
  newObject := plain Eval.newObject
  setField object name value := plain (Eval.setField object name value)
  print line := plain (Eval.print line)

/-- The operations of the evaluator. The clock of the setting is not looked at. -/
def operations (setting : Setting) : Operations Asking where
  toChanges := changes
  readClock := readClock
  readName _ id name := plain (Eval.readName setting id name)
  assignName := changes.assignName setting
  property := changes.property
  construct _ x := x
  inScope := inScope
  inLoop := inLoop
  outsideLoops := outsideLoops
  inCall arity arguments paren x := do
    plain (Eval.checkCall arity arguments paren)
    inCall x
  turns := turns

end Asking

/-- Run a program as far as can be done without knowing the time. -/
def Interpreter.interpretAsking (i : Interpreter) (fuel : Nat) (program : List Stmt) :
    Paused (Option (Option RuntimeError × Interpreter)) :=
  let operations := Asking.operations ⟨i.distances, fun _ => ⟨0⟩⟩
  (Operations.runAll (operations.execute fuel) program i.machine).bind fun o => .ended (i.concluded o)

/-- Run the program that a result is waiting for, as far as that can be done. -/
def Pending.asking {α : Type} (fuel : Nat) : Pending α → Paused (Option α)
  | settled a => .ended (some a)
  | awaits i program next => (i.interpretAsking fuel program).bind fun r => .ended (r.map next)

end LoxLang
