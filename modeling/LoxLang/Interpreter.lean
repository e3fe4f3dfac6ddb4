import LoxLang.Eval.Basic
import LoxLang.Binding

namespace LoxLang

/-- The conditions of a run. -/
structure Conditions where
  clock : Clock
  fuel : Nat

/-- What lives on from one program to the next: the state of the runs so far and the distances of the occurrences that
may still be evaluated. -/
structure Interpreter where
  machine : Machine
  distances : Distances
  /-- Occurrences outside all functions, dropped after the next run. -/
  topLevel : List OccurrenceId

namespace Interpreter

def initial : Interpreter := ⟨.initial, ∅, []⟩

/-- Note the distance of an occurrence. -/
def note (i : Interpreter) (id : OccurrenceId) (distance : Nat) : Interpreter :=
  { i with distances := i.distances.insert id distance }

/-- Note the bindings of a program. -/
def addBinding (i : Interpreter) (b : Binding) : Interpreter :=
  let i := b.distances.foldl (fun i d => i.note d.1 d.2) i
  { i with topLevel := i.topLevel ++ b.topLevel }

/-- Bind the names of a program. Nothing is kept of a program in breach of the rules. -/
def bind (i : Interpreter) (program : List Stmt) : Except (List BindingError) Interpreter :=
  i.addBinding <$> Binding.ofProgram program

/-- Drop the distances of occurrences outside all functions. -/
def forgetTopLevel (i : Interpreter) : Interpreter :=
  { i with distances := i.topLevel.foldl (fun t id => t.erase id) i.distances, topLevel := [] }

def setting (i : Interpreter) (c : Conditions) : Setting := ⟨i.distances, c.clock⟩

/-- The run of a program. -/
def runAll (setting : Setting) (fuel : Nat) (program : List Stmt) : Eval Unit :=
  Operations.runAll (Eval.execute setting fuel) program

/-- What a run leaves behind. Nothing comes out of one that exhausts its fuel. -/
def concluded (i : Interpreter) : Eval.Outcome Unit → Option (Option RuntimeError × Interpreter)
  | .done _ m => some (none, { i with machine := m }.forgetTopLevel)
  | .failed e m => some (some e, { i with machine := m }.forgetTopLevel)
  | .exhausted => none

@[simp]
theorem concluded_done (i : Interpreter) (a : Unit) (m : Machine) :
    i.concluded (.done a m) = some (none, { i with machine := m }.forgetTopLevel) := rfl

@[simp]
theorem concluded_failed (i : Interpreter) (e : RuntimeError) (m : Machine) :
    i.concluded (.failed e m) = some (some e, { i with machine := m }.forgetTopLevel) := rfl

/-- Run a program whose names are bound, up to its first error if there is one. -/
def interpret (i : Interpreter) (c : Conditions) (program : List Stmt) :
    Option (Option RuntimeError × Interpreter) :=
  i.concluded (runAll (i.setting c) c.fuel program i.machine)

/-- The value of an expression among the globals. -/
def evaluate (i : Interpreter) (c : Conditions) (e : Expr) :
    Option (Except RuntimeError Value × Interpreter) :=
  match Eval.evaluate (i.setting c) c.fuel e i.machine with
  | .done v m => some (.ok v, { i with machine := m })
  | .failed error m => some (.error error, { i with machine := m })
  | .exhausted => none

/-- The lines printed since they were last taken. -/
def takePrinted (i : Interpreter) : List String × Interpreter :=
  (i.machine.printed.toList, { i with machine := { i.machine with printed := #[] } })

end Interpreter

/-- A result, or a program that has to run first and what its run leads to. -/
inductive Pending (α : Type) where
  | settled (result : α)
  | awaits (interpreter : Interpreter) (program : List Stmt) (next : Option RuntimeError × Interpreter → α)

namespace Pending

variable {α β : Type}

def map (f : α → β) : Pending α → Pending β
  | settled a => settled (f a)
  | awaits i program next => awaits i program fun r => f (next r)

/-- The result where the program runs under conditions told in advance. -/
def under (c : Conditions) : Pending α → Option α
  | settled a => some a
  | awaits i program next => (i.interpret c program).map next

@[simp]
theorem under_map (c : Conditions) (f : α → β) (p : Pending α) : (p.map f).under c = (p.under c).map f := by
  cases p with
  | settled a => rfl
  | awaits i program next => exact (Option.map_map f next _).symm

end Pending

end LoxLang
