import LoxLang.Eval.Asking
import LoxLang.Proofs.Run.Correspondence

namespace LoxLang

namespace Paused

variable {α β : Type}

/-- Answers go to the first computation and, from there on, to the one that it goes on with. -/
theorem under_bind (clock : Clock) (f : α → Paused β) (x : Paused α) (n : Nat) :
    (x.bind f).under clock n = (f (x.under clock n).1).under clock (x.under clock n).2 := by
  induction x generalizing n with
  | ended a => rfl
  | asks next ih => exact ih (clock n) (n + 1)

end Paused

/-- All turns are one turn, and the others if it leads to more. -/
theorem Eval.turns_eq_turn (condition : Eval Bool) (body : Eval Flow) (fuel : Nat) :
    turns condition body (fuel + 1) = (do
      match ← Asking.turn condition body with
      | none => turns condition body fuel
      | some flow => pure flow) := by
  rw [turns_succ, Asking.turn, bind_assoc]
  congr 1
  funext holds
  cases holds with
  | false => rfl
  | true =>
    rw [if_pos rfl, if_pos rfl, bind_assoc]
    congr 1
    funext flow
    cases flow <;> rfl

namespace Asking

variable {α β : Type}

theorem turns_succ (condition : Asking Bool) (body : Asking Flow) (fuel : Nat) :
    turns condition body (fuel + 1) = (do
      match ← turn condition body with
      | none => turns condition body fuel
      | some flow => pure flow) := by
  funext m
  change turns condition body (fuel + 1) m = (turn condition body m).bind (goOn _)
  unfold turns
  obtain ⟨⟨_ | flow, m'⟩ | ⟨e, m'⟩ | _⟩ | next := turn condition body m <;> rfl

/-- The result and the count are those of an outcome and of the machine in it. -/
structure Tells (r : Eval.Outcome α × Nat) (o : Eval.Outcome α) : Prop where
  outcome : r.1 = o
  count : ∀ m ∈ o.machine?, m.readings = r.2

/-- With the answers of a clock the computation does what the other one does, and the clock has been asked then as often
as the machine has counted. -/
def Answered (clock : Clock) (α : Type) (x : Asking α) (y : Eval α) : Prop :=
  ∀ m, Tells ((x m).under clock m.readings) (y m)

namespace Answered

variable {clock : Clock} {x : Asking α} {y : Eval α}

/-- What asks for nothing and leaves the count alone. -/
theorem plain (h : ∀ m, ∀ m' ∈ (y m).machine?, m'.readings = m.readings) : Answered clock α (Asking.plain y) y :=
  fun m => ⟨rfl, h m⟩

/-- A computation that leaves the machine alone leaves the count of readings alone. -/
theorem still (h : y.Still) : Answered clock α (Asking.plain y) y :=
  plain fun m m' hm' => congrArg Machine.readings (h m m' hm')

/-- A change of what is not the count. -/
theorem modify {f : Machine → Machine} (h : ∀ m, (f m).readings = m.readings) :
    Answered clock Unit (Asking.plain (Eval.modify f)) (Eval.modify f) := by
  apply plain
  rintro m _ ⟨⟩
  exact h m

/-- A question counts once, as a reading does. -/
theorem readClock : Answered clock Number Asking.readClock (Eval.readClock clock) := by
  intro m
  refine ⟨rfl, ?_⟩
  rintro _ ⟨⟩
  rfl

/-- The second computation is given the clock where the first one has left it. -/
theorem bind {f : α → Asking β} {g : α → Eval β} (hx : Answered clock α x y)
    (hf : ∀ a, Answered clock β (f a) (g a)) : Answered clock β (x >>= f) (y >>= g) := by
  intro m
  obtain ⟨hy, hcount⟩ := hx m
  have hunder : ((x >>= f) m).under clock m.readings =
      (goOn f (y m)).under clock ((x m).under clock m.readings).2 := by
    rw [← hy]
    exact Paused.under_bind clock (goOn f) (x m) m.readings
  rw [hunder]
  cases ho : y m with
  | done a m' =>
    rw [ho] at hcount
    -- the rest starts with the count that the first computation has left
    rw [← hcount m' rfl, Eval.bind_done ho]
    exact hf a m'
  | failed e m' =>
    rw [ho] at hcount
    rw [Eval.bind_failed ho]
    exact ⟨rfl, hcount⟩
  | exhausted =>
    rw [Eval.bind_exhausted ho]
    exact ⟨rfl, nofun⟩

theorem composes : Composes (Answered clock) where
  pure a := still (Eval.still_pure a)
  bind := bind
  map f h := bind h fun a => still (Eval.still_pure (f a))

/-- A combinator that starts a computation in another machine, and puts something back when it ends. -/
theorem within {combinator : Eval α → Eval α} {enter : Machine → Machine} (restore : Machine → Machine → Machine)
    (hx : Answered clock α x y) (hcombinator : ∀ x m, combinator x m = Eval.restoring (restore m) x (enter m))
    (henter : ∀ m, (enter m).readings = m.readings) (hrestore : ∀ m m', (restore m m').readings = m'.readings) :
    Answered clock α (Asking.within combinator enter x) (combinator y) := by
  intro m
  obtain ⟨hy, hcount⟩ := hx (enter m)
  rw [henter] at hy hcount
  have hunder : (Asking.within combinator enter x m).under clock m.readings =
      (combinator (fun _ => y (enter m)) m, ((x (enter m)).under clock m.readings).2) := by
    rw [← hy]
    exact Paused.under_bind clock _ (x (enter m)) m.readings
  have hsame : combinator (fun _ => y (enter m)) m = combinator y m :=
    (hcombinator _ m).trans (hcombinator y m).symm
  rw [hunder, hsame, hcombinator]
  refine ⟨rfl, fun m' hm' => ?_⟩
  rw [Eval.machine?_restoring] at hm'
  obtain ⟨inside, hinside, rfl⟩ := Option.map_eq_some_iff.1 hm'
  exact (hrestore m inside).trans (hcount inside hinside)

theorem inScope (s : ScopeId) (hx : Answered clock α x y) :
    Answered clock α (Asking.inScope s x) (Eval.inScope s y) :=
  within (fun m m' => { m' with scope := m.scope }) hx (fun _ _ => rfl) (fun _ => rfl) fun _ _ => rfl

theorem inLoop (hx : Answered clock α x y) : Answered clock α (Asking.inLoop x) (Eval.inLoop y) :=
  within (fun _ m' => { m' with loopDepth := m'.loopDepth - 1 }) hx (fun _ _ => rfl) (fun _ => rfl) fun _ _ => rfl

theorem outsideLoops (hx : Answered clock α x y) : Answered clock α (Asking.outsideLoops x) (Eval.outsideLoops y) :=
  within (fun m m' => { m' with loopDepth := m.loopDepth }) hx (fun _ _ => rfl) (fun _ => rfl) fun _ _ => rfl

theorem inCall (hx : Answered clock α x y) : Answered clock α (Asking.inCall x) (Eval.inCall y) :=
  within (fun _ m' => { m' with callDepth := m'.callDepth - 1 }) hx (fun _ _ => rfl) (fun _ => rfl) fun _ _ => rfl

theorem assign (f : Store → Except AccessError ScopeId) (name : Token) (value : Value) :
    Answered clock Unit (Asking.plain (Eval.assign f name value)) (Eval.assign f name value) := by
  apply plain
  intro m
  unfold Eval.assign
  cases f m.store with
  | ok s =>
    rintro _ ⟨⟩
    rfl
  | error e =>
    rintro _ ⟨⟩
    rfl

theorem changes : Changes.Correspond (Answered clock) Asking.changes Eval.changes where
  toComposes := composes
  look := still
  childScope s := plain fun m => by
    rintro _ ⟨⟩
    rfl
  define s name value := modify fun _ => rfl
  declare s name := modify fun _ => rfl
  assign := assign
  newObject := plain fun m => by
    rintro _ ⟨⟩
    rfl
  setField object name value := modify fun _ => rfl
  print line := modify fun _ => rfl

/-- One turn of a loop, with the questions of its condition and of its body. -/
theorem turn {condition : Asking Bool} {body : Asking Flow} {condition' : Eval Bool} {body' : Eval Flow}
    (hc : Answered clock Bool condition condition') (hb : Answered clock Flow body body') :
    Answered clock (Option Flow) (Asking.turn condition body) (Asking.turn condition' body') := by
  apply bind hc
  intro holds
  cases holds with
  | false => exact composes.pure _
  | true =>
    apply bind hb
    intro flow
    cases flow with
    | normal => exact composes.pure _
    | «break» => exact composes.pure _
    | «return» value => exact composes.pure _

/-- Turns of a loop, by induction on their number. -/
theorem turns {condition : Asking Bool} {body : Asking Flow} {condition' : Eval Bool} {body' : Eval Flow}
    (hc : Answered clock Bool condition condition') (hb : Answered clock Flow body body') (fuel : Nat) :
    Answered clock Flow (Asking.turns condition body fuel) (Eval.turns condition' body' fuel) := by
  induction fuel with
  | zero => exact still Eval.still_exhausted
  | succ fuel ih =>
    rw [turns_succ, Eval.turns_eq_turn]
    apply bind (turn hc hb)
    intro ending
    cases ending with
    | none => exact ih
    | some flow => exact composes.pure flow

end Answered

/-- A clock that answers makes a run with questions the run under that clock. -/
theorem operations_answered (setting : Setting) (clock : Clock) :
    Operations.Correspond (Answered clock) (operations setting) (Eval.operations { setting with clock := clock }) where
  toCorrespond := Answered.changes
  readClock := .readClock
  readName _ id name := .still (Eval.still_readName { setting with clock := clock } id name)
  assignName := Answered.changes.assignName { setting with clock := clock }
  property := Answered.changes.property
  construct _ _ _ h := h
  inScope s _ _ h := .inScope s h
  inLoop h := .inLoop h
  outsideLoops h := .outsideLoops h
  inCall arity arguments paren _ _ h := .bind (.still (Eval.still_checkCall arity arguments paren)) fun _ => .inCall h
  turns := .turns

/-- The statements of a program, with the questions of all of them. -/
theorem runAll_answered (setting : Setting) (clock : Clock) (fuel : Nat) (program : List Stmt) :
    Answered clock Unit (Operations.runAll ((operations setting).execute fuel) program)
      (Interpreter.runAll { setting with clock := clock } fuel program) :=
  Answered.composes.runAll ((operations_answered setting clock).at fuel).execute program

end Asking

/-- Where a clock answers, a run with questions comes to what the run under that clock comes to, and the clock is asked
as often as the machine counts. So one clock answers the questions of all programs of a session. -/
theorem Interpreter.interpretAsking_under (i : Interpreter) (c : Conditions) (program : List Stmt) :
    ((i.interpretAsking c.fuel program).under c.clock i.machine.readings).1 = i.interpret c program ∧
      ∀ error i', i.interpret c program = some (error, i') →
        i'.machine.readings = ((i.interpretAsking c.fuel program).under c.clock i.machine.readings).2 := by
  obtain ⟨houtcome, hcount⟩ := Asking.runAll_answered ⟨i.distances, fun _ => ⟨0⟩⟩ c.clock c.fuel program i.machine
  unfold interpretAsking
  rw [Paused.under_bind, houtcome]
  refine ⟨rfl, fun error i' hi => ?_⟩
  obtain ⟨m', hm', rfl⟩ := concluded_eq_some hi
  exact hcount m' hm'

/-- The result that waits for a program is the same whether the times are known in advance or asked for. -/
theorem Pending.asking_under {α : Type} (p : Pending α) (c : Conditions) {readings : Nat}
    (h : ∀ i program next, p = .awaits i program next → i.machine.readings = readings) :
    ((p.asking c.fuel).under c.clock readings).1 = p.under c := by
  cases p with
  | settled a => rfl
  | awaits i program next =>
    obtain ⟨hresult, -⟩ := i.interpretAsking_under c program
    rw [← h i program next rfl, asking, Paused.under_bind, hresult]
    rfl

end LoxLang
