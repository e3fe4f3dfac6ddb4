import LoxLang.Proofs.Run.Ending.Evaluation
import LoxLang.Proofs.Run.Ending.Limits

namespace LoxLang

/-- A program ends if calls do: it is a list of trees without loops. -/
theorem Eval.runAll_settles (setting : Setting) {R : Region} {m : Machine} {d : Nat} {program : List Stmt}
    (hprogram : Stmt.loopFreeAll program) (h : m.Within R d) :
    Settles (fun fuel => Interpreter.runAll setting fuel program) m fun _ m' => m'.Within R d := by
  induction program generalizing m with
  | nil => exact .steady h
  | cons s program ih =>
    rw [Stmt.loopFreeAll, Bool.and_eq_true] at hprogram
    apply (execute_settles (callsEnd setting R d) s hprogram.1 h).bind
    rintro _ m₁ ⟨-, h₁⟩
    exact ih hprogram.2 h₁

namespace Interpreter

/-- Without a limit on open calls, the program would not end. -/
def RunsOn (i : Interpreter) (clock : Clock) (program : List Stmt) : Prop :=
  ∀ fuel, Eval.runUnlimited ⟨i.distances, clock⟩ fuel program i.machine = .exhausted

/-- What ends although it would not without the limit has come to the limit. -/
theorem RunsOn.overflows {i : Interpreter} {clock : Clock} {program : List Stmt} (h : i.RunsOn clock program)
    {fuel : Nat} {o : Eval.Outcome Unit} (hrun : runAll ⟨i.distances, clock⟩ fuel program i.machine = o)
    (ho : o ≠ .exhausted) : ∃ line m', o = .failed ⟨.stackOverflow, line⟩ m' := by
  obtain hsame | hoverflow := Eval.runAll_orOverflows ⟨i.distances, clock⟩ fuel program i.machine
  · exact absurd (hrun.symm.trans (hsame.trans (h fuel))) ho
  · rwa [hrun] at hoverflow

/-- Where no loop is stored and the program has none, its run ends, with success or with an error. Where it would not
end without a limit on open calls, it ends in a stack overflow. -/
theorem loopFree_ends (i : Interpreter) (clock : Clock) (program : List Stmt)
    (hstored : ∀ f, i.machine.Stores (.function f) → f.declaration.loopFree) (hprogram : Stmt.loopFreeAll program) :
    ∃ enough error i', (∀ fuel, enough ≤ fuel → i.interpret ⟨clock, fuel⟩ program = some (error, i')) ∧
      (i.RunsOn clock program → ∃ line, error = some ⟨.stackOverflow, line⟩) := by
  have hsettles := Eval.runAll_settles ⟨i.distances, clock⟩ hprogram (Machine.within_region hstored)
  obtain ⟨enough, o, ho, hrun⟩ := hsettles
  have hlast : runAll ⟨i.distances, clock⟩ enough program i.machine = o := hrun enough (Nat.le_refl _)
  cases o with
  | done _ m' =>
    refine ⟨enough, none, { i with machine := m' }.forgetTopLevel, fun fuel hfuel => ?_, fun hon => ?_⟩
    · simp only [interpret, setting, hrun fuel hfuel, concluded]
    · obtain ⟨line, m'', ⟨⟩⟩ := hon.overflows hlast nofun
  | failed e m' =>
    refine ⟨enough, some e, { i with machine := m' }.forgetTopLevel, fun fuel hfuel => ?_, fun hon => ?_⟩
    · simp only [interpret, setting, hrun fuel hfuel, concluded]
    · obtain ⟨line, m'', ⟨⟩⟩ := hon.overflows hlast nofun
      exact ⟨line, rfl⟩
  | exhausted => cases ho

end Interpreter

theorem Machine.initial_stores {v : Value} (h : Machine.initial.Stores v) : v = .native .clock := by
  have hcell : ∀ s name v, Machine.initial.store.cell? s name = some (some v) → v = .native .clock := by
    intro s name v hv
    have hlt : Machine.globals < Store.empty.root.2.next := by decide
    rw [Machine.initial, Store.define, Store.cell?_setCell hlt] at hv
    split at hv
    · cases hv
      rfl
    · rw [Store.root, Store.cell?_addScope] at hv
      cases hv
  refine @Machine.Stores.rec Machine.initial (fun _ _ => True) (fun v _ => v = .native .clock)
    trivial trivial (fun _ _ _ => trivial) (fun _ _ => trivial) (fun _ hv _ => hcell _ _ _ hv) ?_ ?_ ?_ v h
  all_goals
    intros
    contradiction

namespace Interpreter

/-- The call `f()`. -/
def selfCall (id : OccurrenceId) : Expr :=
  .call (.variable id ⟨.identifier, "f", 1⟩) ⟨.mark .rightParen, ")", 1⟩ []

/-- A function of which the body is `f();`, declared among the globals. -/
def selfCaller : Closure := ⟨0, .mk ⟨.identifier, "f", 1⟩ [] [.expression (selfCall 0)], Machine.globals, false⟩

/-- The function is called `f`. -/
def KnowsSelf (m : Machine) : Prop := m.store.cell? Machine.globals "f" = some (some (.function selfCaller))

theorem KnowsSelf.get {m : Machine} (h : KnowsSelf m) :
    m.store.get Machine.globals "f" = .ok (.function selfCaller) := by
  have hcell : m.store.cell? Machine.globals "f" = some (some (.function selfCaller)) := h
  have hhas : m.store.Has Machine.globals "f" := Store.Filled.has ⟨_, hcell⟩
  rw [Store.get, Store.holder_of_has hhas]
  simp only [Bind.bind, Except.bind, hcell, Store.readCell]

/-- With so much fuel and no limit on open calls, the function does not end. -/
structure CallsOn (setting : Setting) (fuel : Nat) : Prop where
  evaluate : ∀ id m, KnowsSelf m → (Eval.unlimited setting).evaluate fuel (selfCall id) m = .exhausted
  execute : ∀ id m, KnowsSelf m →
    (Eval.unlimited setting).execute fuel (.expression (selfCall id)) m = .exhausted
  call : ∀ paren m, KnowsSelf m →
    (Eval.unlimited setting).call fuel (.function selfCaller) [] paren m = .exhausted
  run : ∀ m, KnowsSelf m → (Eval.unlimited setting).run fuel selfCaller [] m = .exhausted

theorem callsOn (clock : Clock) (fuel : Nat) : CallsOn ⟨∅, clock⟩ fuel := by
  induction fuel with
  | zero => exact ⟨fun _ _ _ => rfl, fun _ _ _ => rfl, fun _ _ _ => rfl, fun _ _ => rfl⟩
  | succ fuel h =>
    constructor
    case evaluate =>
      intro id m hm
      cases fuel with
      | zero => rfl
      | succ fuel =>
        have hname : Eval.readName ⟨∅, clock⟩ id ⟨.identifier, "f", 1⟩ m = .done (.function selfCaller) m := by
          simp [Eval.readName, Eval.access, hm.get]
        exact (Eval.bind_done hname).trans (h.call _ m hm)
    case execute => exact fun id m hm => Eval.bind_exhausted (h.evaluate id m hm)
    case call => exact fun paren m hm => (Eval.bind_done rfl).trans (Eval.restoring_exhausted (h.run _ hm))
    case run =>
      intro m hm
      have hbody : ∀ m, KnowsSelf m →
          Operations.sequence ((Eval.unlimited ⟨∅, clock⟩).execute fuel) [.expression (selfCall 0)] m = .exhausted :=
        fun m hm => Eval.bind_exhausted (h.execute 0 m hm)
      have hchild : KnowsSelf { m with store := (m.store.child Machine.globals).2 } := by
        rwa [KnowsSelf, Store.child, Store.cell?_addScope]
      refine (Eval.bind_done rfl).trans ((Eval.bind_done rfl).trans (Eval.bind_exhausted ?_))
      exact Eval.restoring_exhausted (Eval.restoring_exhausted (hbody _ hchild))

/-- The program `fun f() { f(); } f();`. -/
def selfCalling : List Stmt := [.function selfCaller.declaration, .expression (selfCall 1)]

/-- Without the limit each call opens another one, so no fuel is enough. -/
theorem selfCalling_runsOn (clock : Clock) : initial.RunsOn clock selfCalling := by
  intro fuel
  cases fuel with
  | zero => rfl
  | succ fuel =>
    refine (Eval.bind_done rfl).trans (Eval.bind_exhausted ?_)
    exact (callsOn clock (fuel + 1)).execute 1 _ rfl

theorem selfCalling_overflows : ∃ enough line i', ∀ fuel, enough ≤ fuel →
    initial.interpret ⟨.ticking, fuel⟩ selfCalling = some (some ⟨.stackOverflow, line⟩, i') := by
  have hstored : ∀ f, initial.machine.Stores (.function f) → f.declaration.loopFree :=
    fun f hf => nomatch Machine.initial_stores hf
  obtain ⟨enough, error, i', hends, hoverflows⟩ := loopFree_ends initial .ticking selfCalling hstored (by decide)
  obtain ⟨line, rfl⟩ := hoverflows (selfCalling_runsOn .ticking)
  exact ⟨enough, line, i', hends⟩

end Interpreter

end LoxLang
