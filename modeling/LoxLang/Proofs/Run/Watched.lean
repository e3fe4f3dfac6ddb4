import LoxLang.Proofs.Run.Telling

namespace LoxLang

namespace Stmt

/-- The statements directly inside one, but not those of a function. -/
def children : Stmt → List Stmt
  | .block body => body
  | .branch _ thenBranch elseBranch => thenBranch :: elseBranch.toList
  | .loop _ body => [body]
  | _ => []

def isLoop : Stmt → Bool
  | .loop _ _ => true
  | _ => false

/-- A statement of a body, inside the statements told, the innermost first. -/
inductive Nested (body : List Stmt) : List Stmt → Stmt → Prop
  | outermost {s : Stmt} (h : s ∈ body) : Nested body [] s
  | inside {around : List Stmt} {t s : Stmt} (ht : Nested body around t) (h : s ∈ t.children) :
    Nested body (t :: around) s

end Stmt

/-- A body that is running: that of a program, or that of a function that was called inside statements of another body.
-/
inductive Activation where
  | program (body : List Stmt)
  | call (f : Closure) (caller : Activation) (around : List Stmt)

namespace Activation

def body : Activation → List Stmt
  | program body => body
  | call f _ _ => f.declaration.body

/-- The program in whose run the body runs. -/
def origin : Activation → List Stmt
  | program body => body
  | call _ caller _ => caller.origin

/-- The calls that are open. -/
def depth : Activation → Nat
  | program _ => 0
  | call _ caller _ => caller.depth + 1

end Activation

/-- A place in a running body, told by the statements of the body around it, the innermost first. -/
structure Position where
  activation : Activation
  around : List Stmt

namespace Position

/-- The statement stands at the place. -/
def Has (p : Position) (s : Stmt) : Prop := Stmt.Nested p.activation.body p.around s

/-- Inside a statement at the place. -/
def within (p : Position) (s : Stmt) : Position := { p with around := s :: p.around }

/-- The outermost place in the body of a function that is called at the place. -/
def called (p : Position) (f : Closure) : Position := ⟨.call f p.activation p.around, []⟩

/-- The loops of the body around the place. -/
def loops (p : Position) : Nat := p.around.countP Stmt.isLoop

end Position

/-- What there is to tell of a place. -/
inductive Report where
  | starts (s : Stmt)
  | ends (s : Stmt) (flow : Flow)
  | yields (e : Expr) (value : Value)
  /-- An occurrence of `this` is about to be read. -/
  | seeks (id : OccurrenceId) (keyword : Token)
  /-- A property of an instance has been read. -/
  | reads (object : ObjectId) (cls : Class) (name : Token) (value : Value)
  /-- The initializer of an instance has run, bound to it. -/
  | builds (f : Closure) (value : Value)
  /-- The body of a call is left, as its last statement ended. -/
  | leaves (flow : Flow)
  /-- The call has its result. -/
  | results (value : Value)

structure Event where
  position : Position
  report : Report
  machine : Machine

/-- What an event tells, whatever the machine. -/
def Event.told (v : Event) : Position × Report := (v.position, v.report)

/-- A computation that tells its events. -/
abbrev Watched (α : Type) : Type := Telling Event α

namespace Watched
open Telling

variable {α : Type}

/-- Tell of a place. -/
def tell (p : Position) (report : Report) : Watched Unit := Telling.tell fun m => ⟨p, report, m⟩

/-- A computation whose value is told when it is there. -/
def telling (p : Position) (report : α → Report) (x : Watched α) : Watched α :=
  Telling.telling (fun a m => ⟨p, report a, m⟩) x

/-- Read an occurrence of a name at a place. -/
def readName (setting : Setting) (p : Position) : Occurrence.Form → OccurrenceId → Token → Watched Value
  | .this, id, keyword => do
    tell p (.seeks id keyword)
    silent (Eval.readName setting id keyword)
  | _, id, name => silent (Eval.readName setting id name)

/-- The operations at a place, which tell where `this` is sought, what is read of an instance, what an initializer
builds and how a body is left. -/
def operations (setting : Setting) (p : Position) : Operations Watched :=
  { Telling.operations setting with
    readName := readName setting p
    property := fun object cls name => telling p (.reads object cls name) (silent (Eval.property object cls name))
    construct := fun f x => telling p (.builds f) x
    outsideLoops := fun x => telling p .leaves (outsideLoops x) }

mutual

/-- The value of an expression at a place. -/
def evaluate (setting : Setting) : Nat → Position → Expr → Watched Value
  | 0, _, _ => silent Eval.exhausted
  | fuel + 1, p, e =>
    telling p (.yields e) ((operations setting p).expression (evaluate setting fuel p) (call setting fuel p) e)

/-- How a statement at a place ends. What is inside the statement is told as such. -/
def execute (setting : Setting) : Nat → Position → Stmt → Watched Flow
  | 0, _, _ => silent Eval.exhausted
  | fuel + 1, p, s => do
    tell p (.starts s)
    telling p (.ends s)
      ((operations setting p).statement (evaluate setting fuel (p.within s)) (execute setting fuel (p.within s)) fuel s)

def call (setting : Setting) : Nat → Position → Value → List Value → Token → Watched Value
  | 0, _, _, _, _ => silent Eval.exhausted
  | fuel + 1, p, callee, arguments, paren =>
    (operations setting p).calling (run setting fuel p) arguments paren callee

/-- The result of a function that is called at a place. -/
def run (setting : Setting) : Nat → Position → Closure → List Value → Watched Value
  | 0, _, _, _ => silent Eval.exhausted
  | fuel + 1, p, f, arguments =>
    telling (p.called f) .results
      ((operations setting (p.called f)).body (execute setting fuel (p.called f)) f arguments)

end

def runAll (setting : Setting) (fuel : Nat) (p : Position) (program : List Stmt) : Watched Unit :=
  Operations.runAll (execute setting fuel p) program

@[simp]
theorem plain_telling (p : Position) (report : α → Report) (x : Watched α) : (telling p report x).plain = x.plain :=
  Telling.plain_telling _ x

theorem operations_plain (setting : Setting) (p : Position) :
    Operations.Correspond IsPlain (operations setting p) (Eval.operations setting) :=
  { Telling.operations_plain setting with
    readName := fun form _ _ => by cases form <;> rfl
    property := fun _ _ _ => plain_telling p _ _
    construct := fun f _ _ h => (plain_telling p (.builds f) _).trans h
    outsideLoops := fun h => (plain_telling p .leaves _).trans (congrArg Eval.outsideLoops h) }

/-- With so much fuel, what is watched runs as without the log, wherever it is. -/
structure PlainAt (setting : Setting) (fuel : Nat) : Prop where
  evaluate : ∀ p e, (evaluate setting fuel p e).plain = Eval.evaluate setting fuel e
  execute : ∀ p s, (execute setting fuel p s).plain = Eval.execute setting fuel s
  call : ∀ p callee arguments paren,
    (call setting fuel p callee arguments paren).plain = Eval.call setting fuel callee arguments paren
  run : ∀ p f arguments, (run setting fuel p f arguments).plain = Eval.run setting fuel f arguments

/-- Each part is watched at a place of its own, so the log is taken away by induction on the fuel and not by one
comparison of operations. -/
theorem plainAt (setting : Setting) (fuel : Nat) : PlainAt setting fuel := by
  induction fuel with
  | zero => exact ⟨fun _ _ => rfl, fun _ _ => rfl, fun _ _ _ _ => rfl, fun _ _ _ => rfl⟩
  | succ fuel h =>
    constructor
    case evaluate =>
      intro p e
      exact (plain_telling p _ _).trans ((operations_plain setting p).expression (h.evaluate p) (h.call p) e)
    case execute =>
      intro p s
      have hs := (operations_plain setting p).statement (h.evaluate (p.within s)) (h.execute (p.within s)) fuel s
      exact (plain_bind _ _).trans ((plain_telling p _ _).trans hs)
    case call =>
      exact fun p callee arguments paren => (operations_plain setting p).calling (h.run p) arguments paren callee
    case run =>
      intro p f arguments
      have hf := (operations_plain setting (p.called f)).body (h.execute (p.called f)) f arguments
      exact (plain_telling _ _ _).trans hf

/-- A watched run of a program is the run of the program. -/
theorem plain_runAll (setting : Setting) (fuel : Nat) (p : Position) (program : List Stmt) :
    (runAll setting fuel p program).plain = Interpreter.runAll setting fuel program :=
  isPlain_composes.runAll ((plainAt setting fuel).execute p) program

/-- Inside a simple statement there is nothing to tell. -/
theorem statement_simple (setting : Setting) (fuel : Nat) (p : Position) {s : Stmt} (hs : s.isSimple) :
    (operations setting p).statement (evaluate setting fuel (p.within s)) (execute setting fuel (p.within s)) fuel s =
      silent (Eval.execute setting (fuel + 1) s) := by
  have h : IsSilent Flow ((operations setting p).statement (evaluate setting fuel (p.within s))
        (execute setting fuel (p.within s)) fuel s)
      ((Eval.operations setting).statement (Eval.evaluate setting fuel) (Eval.execute setting fuel) fuel s) :=
    changes_silent.simple hs
  exact h

theorem defineAll_silent (setting : Setting) (p : Position) (scope : ScopeId) (ps : List Token) (vs : List Value) :
    (operations setting p).defineAll scope ps vs = silent (Eval.defineAll scope ps vs) :=
  changes_silent.defineAll scope ps vs

end Watched

end LoxLang
