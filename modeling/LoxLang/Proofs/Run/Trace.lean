import LoxLang.Proofs.Run.Telling
import LoxLang.Tree.Occurrence

namespace LoxLang

/-- An occurrence of a name about to be used. The value of an assignment has been computed by then. -/
structure Moment where
  occurrence : Occurrence
  setting : Setting
  machine : Machine

namespace Moment

def name (μ : Moment) : String := μ.occurrence.token.lexeme

/-- The scopes outward, as noted for the occurrence. -/
def distance (μ : Moment) : Option Nat := μ.setting.distances[μ.occurrence.id]?

/-- What comes of reading the name at the moment. -/
def read (μ : Moment) : Eval.Outcome Value :=
  Eval.readName μ.setting μ.occurrence.id μ.occurrence.token μ.machine

/-- What comes of assigning to the name at the moment. -/
def assign (μ : Moment) (value : Value) : Eval.Outcome Unit :=
  Eval.assignName μ.setting μ.occurrence.id μ.occurrence.token value μ.machine

/-- The moment fills a cell that it reaches by its distance. -/
def Assigns (μ : Moment) (s : ScopeId) (name : String) : Prop :=
  μ.occurrence.form = .assign ∧ μ.name = name ∧
    ∃ d, μ.distance = some d ∧ μ.machine.store.holderAt μ.machine.scope d name = .ok s

end Moment

/-- A computation that logs the occurrences of names that it comes to. -/
abbrev Logged (α : Type) : Type := Telling Moment α

namespace Logged
open Telling

def note (setting : Setting) (o : Occurrence) : Logged Unit := tell fun m => ⟨o, setting, m⟩

/-- Read an occurrence of a name, which is logged before. -/
def readName (setting : Setting) (form : Occurrence.Form) (id : OccurrenceId) (name : Token) : Logged Value := do
  note setting ⟨form, id, name⟩
  silent (Eval.readName setting id name)

def assignName (setting : Setting) (id : OccurrenceId) (name : Token) (value : Value) : Logged Unit := do
  note setting ⟨.assign, id, name⟩
  silent (Eval.assignName setting id name value)

/-- Each occurrence is logged before it is used; nothing else is. -/
def operations (setting : Setting) : Operations Logged :=
  { Telling.operations setting with
    readName := readName setting
    assignName := assignName setting }

def evaluate (setting : Setting) (fuel : Nat) (e : Expr) : Logged Value := (operations setting).evaluate fuel e

def execute (setting : Setting) (fuel : Nat) (s : Stmt) : Logged Flow := (operations setting).execute fuel s

def call (setting : Setting) (fuel : Nat) (callee : Value) (arguments : List Value) (paren : Token) : Logged Value :=
  (operations setting).call fuel callee arguments paren

def run (setting : Setting) (fuel : Nat) (f : Closure) (arguments : List Value) : Logged Value :=
  (operations setting).run fuel f arguments

def runAll (setting : Setting) (fuel : Nat) (program : List Stmt) : Logged Unit :=
  Operations.runAll (execute setting fuel) program

/-- To log an occurrence is all that is new. -/
theorem operations_plain (setting : Setting) :
    Operations.Correspond IsPlain (operations setting) (Eval.operations setting) :=
  { Telling.operations_plain setting with
    readName := fun _ _ _ => plain_bind _ _
    assignName := fun _ _ _ => plain_bind _ _ }

/-- A logged run of a program is the run of the program. -/
theorem plain_runAll (setting : Setting) (fuel : Nat) (program : List Stmt) :
    (runAll setting fuel program).plain = Interpreter.runAll setting fuel program :=
  isPlain_composes.runAll ((operations_plain setting).at fuel).execute program

/-- In a simple statement there is nothing to log. -/
theorem execute_simple (setting : Setting) (fuel : Nat) {s : Stmt} (hs : s.isSimple) :
    execute setting (fuel + 1) s = silent (Eval.execute setting (fuel + 1) s) := by
  have h : IsSilent Flow ((operations setting).statement (evaluate setting fuel) (execute setting fuel) fuel s)
      ((Eval.operations setting).statement (Eval.evaluate setting fuel) (Eval.execute setting fuel) fuel s) :=
    changes_silent.simple hs
  exact h

theorem defineAll_silent (setting : Setting) (scope : ScopeId) (ps : List Token) (vs : List Value) :
    (operations setting).defineAll scope ps vs = silent (Eval.defineAll scope ps vs) :=
  changes_silent.defineAll scope ps vs

end Logged

end LoxLang
