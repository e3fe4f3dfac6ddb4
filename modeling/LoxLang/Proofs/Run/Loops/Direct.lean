import LoxLang.Grammar.Statements
import LoxLang.Interpreter
import LoxLang.Proofs.Scope.Walk

namespace LoxLang
open Scoping

/-- The clauses of a `for` and its body. -/
structure ForLoop where
  initializer : Option Stmt
  condition : Option Expr
  increment : Option Expr
  body : Stmt

namespace ForLoop

/-- The statement that stands for the loop in a tree. -/
def desugared (f : ForLoop) : Stmt := .forLoop f.initializer f.condition f.increment f.body

/-- The first clause declares a variable or is an expression, and the body is not a declaration. -/
structure Proper (f : ForLoop) : Prop where
  initializer : ∀ s ∈ f.initializer, (∃ name value, s = .var name value) ∨ ∃ value, s = .expression value
  body : f.body.isDeclaration = false

/-- A body is smaller than its loop, so the sites of a program are found by recursion on its tree. -/
theorem sizeOf_body_lt (f : ForLoop) : sizeOf f.body < sizeOf f.desugared := by
  obtain ⟨initializer, condition, increment, body⟩ := f
  cases initializer <;> cases increment <;> simp [desugared, Stmt.forLoop] <;> omega

end ForLoop

/-- Which statements are taken as `for` loops, and with which clauses. -/
structure Reading where
  loop? : Stmt → Option ForLoop
  desugared : ∀ {s : Stmt} {f : ForLoop}, loop? s = some f → f.desugared = s
  proper : ∀ {s : Stmt} {f : ForLoop}, loop? s = some f → f.Proper

namespace Eval

variable {α : Type}

/-- Run in a new scope inside the current one. -/
def inNewScope (x : Eval α) : Eval α := do
  let scope ← childScope (← read Machine.scope)
  inScope scope x

/-- One after the other, if the first ends normally. -/
def andThen (first second : Eval Flow) : Eval Flow := do
  match ← first with
  | .normal => second
  | flow => pure flow

/-- The first clause of a `for`, if there is one. -/
def opening (step : Stmt → Eval Flow) : Option Stmt → Eval Flow
  | some first => step first
  | none => pure .normal

/-- The condition of a `for`, which is true if it is missing. -/
def holds (step : Expr → Eval Value) : Option Expr → Eval Bool
  | some condition => Value.isTruthy <$> step condition
  | none => pure true

/-- The increment of a `for`, if there is one. -/
def advance (step : Expr → Eval Value) : Option Expr → Eval Unit
  | some increment => do
    let _ ← step increment
    pure ()
  | none => pure ()

/-- The turns of a `for`, at most as many as there is fuel. A body that leaves the loop leaves out the increment. -/
def forTurns (condition : Eval Bool) (body : Eval Flow) (increment : Eval Unit) : Nat → Eval Flow
  | 0 => exhausted
  | fuel + 1 => do
    if ← condition then
      match ← body with
      | .normal => do
        increment
        forTurns condition body increment fuel
      | .break => pure .normal
      | .return value => pure (.return value)
    else pure .normal

end Eval

namespace Reading
open Eval

variable (r : Reading) (setting : Setting)

mutual

def evaluate : Nat → Expr → Eval Value
  | 0, _ => exhausted
  | fuel + 1, e => (operations setting).expression (evaluate fuel) (call fuel) e

/-- A `for` loop runs its first clause once, in a new scope that is there for the whole loop. -/
def execute : Nat → Stmt → Eval Flow
  | 0, _ => exhausted
  | fuel + 1, s => match r.loop? s with
    | some f =>
      inNewScope <| andThen (opening (execute fuel) f.initializer) <| inLoop <|
        forTurns (holds (evaluate fuel) f.condition) (execute fuel f.body) (advance (evaluate fuel) f.increment) fuel
    | none => (operations setting).statement (evaluate fuel) (execute fuel) fuel s

def call : Nat → Value → List Value → Token → Eval Value
  | 0, _, _, _ => exhausted
  | fuel + 1, callee, arguments, paren => (operations setting).calling (run fuel) arguments paren callee

def run : Nat → Closure → List Value → Eval Value
  | 0, _, _ => exhausted
  | fuel + 1, f, arguments => (operations setting).body (execute fuel) f arguments

end

/-- A `for` run by its clauses. -/
def runFor (fuel : Nat) (f : ForLoop) : Eval Flow :=
  inNewScope <| andThen (opening (r.execute setting fuel) f.initializer) <| inLoop <|
    forTurns (holds (r.evaluate setting fuel) f.condition) (r.execute setting fuel f.body)
      (advance (r.evaluate setting fuel) f.increment) fuel

variable {r setting} in
theorem execute_of_loop {s : Stmt} {f : ForLoop} {fuel : Nat} (hr : r.loop? s = some f) :
    r.execute setting (fuel + 1) s = r.runFor setting fuel f := by
  rw [execute.eq_def]
  simp only [hr]
  rfl

/-- Where no statement is read as a `for`, the direct run is the run of the tree. -/
theorem runs_as_built (hr : ∀ s, r.loop? s = none) (fuel : Nat) :
    r.evaluate setting fuel = Eval.evaluate setting fuel ∧ r.execute setting fuel = Eval.execute setting fuel ∧
      r.call setting fuel = Eval.call setting fuel ∧ r.run setting fuel = Eval.run setting fuel := by
  induction fuel with
  | zero => exact ⟨rfl, rfl, rfl, rfl⟩
  | succ fuel ih =>
    obtain ⟨hevaluate, hexecute, hcall, hrun⟩ := ih
    refine ⟨funext fun e => ?_, funext fun s => ?_, funext fun callee => ?_, ?_⟩
    · rw [evaluate, hevaluate, hcall]
      rfl
    · rw [execute, hr, hevaluate, hexecute]
      rfl
    · funext arguments paren
      rw [call, hrun]
      rfl
    · funext f arguments
      rw [run, hexecute]
      rfl

/-- The statements of a program, one after another. -/
def runAll (fuel : Nat) (program : List Stmt) : Eval Unit :=
  Operations.runAll (r.execute setting fuel) program

mutual

/-- Where the occurrences of names stand if each `for` has one scope, which its first clause opens. -/
def sites (c : Context) (s : Stmt) : List Site :=
  match _ : r.loop? s with
  | some f =>
    let turn := (c.inside []).afterAll f.initializer.toList
    Stmt.sitesAll (c.inside []) f.initializer.toList ++ Expr.sitesAll turn f.condition.toList ++ sites turn f.body ++
      Expr.sitesAll turn f.increment.toList
  | none => match s with
    | .block body => sitesAll (c.inside []) body
    | .branch condition thenBranch none => condition.sites c ++ sites c thenBranch
    | .branch condition thenBranch (some elseBranch) =>
      condition.sites c ++ sites c thenBranch ++ sites c elseBranch
    | .loop condition body => condition.sites c ++ sites c body
    | .function f => functionSites ⟨.function, c.place.inClass⟩ (c.declare f.name .function) f
    | .class name methods => methodSites (c.declare name .class).inClass methods
    | s => s.sites c
termination_by sizeOf s
decreasing_by
  · next h => exact r.desugared h ▸ f.sizeOf_body_lt
  all_goals
    simp only [wfParam]
    decreasing_tactic

def sitesAll (c : Context) : List Stmt → List Site
  | [] => []
  | s :: ss => sites c s ++ sitesAll (c.after s) ss
termination_by ss => sizeOf ss

def functionSites (place : Binding.Place) (c : Context) : Function → List Site
  | .mk _ parameters body => sitesAll (c.inBody place parameters) body
termination_by f => sizeOf f

def methodSites (c : Context) : List Function → List Site
  | [] => []
  | f :: fs => functionSites (Binding.methodPlace f) c f ++ methodSites c fs
termination_by fs => sizeOf fs

end

/-- For each occurrence that is bound to a local scope, how many scopes outward that is in the direct run. -/
def distances (program : List Stmt) : Distances :=
  ((r.sitesAll .top program).filterMap Binding.noted).foldl (fun t d => t.insert d.1 d.2) ∅

end Reading

end LoxLang
