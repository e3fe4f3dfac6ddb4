import LoxLang.Proofs.Run.Loops.Evaluation
import LoxLang.Proofs.Run.Access

namespace LoxLang
open Scoping Eval

/-- The reading that takes no other statement as a `for`. -/
noncomputable def Reading.only (f : ForLoop) (hf : f.Proper) : Reading where
  loop? := open Classical in fun s => if f.desugared = s then some f else none
  desugared := by
    intro s g h
    split at h
    · next hs =>
      cases h
      exact hs
    · cases h
  proper := by
    intro s g h
    split at h <;> cases h
    exact hf

theorem Reading.only_loop? (f : ForLoop) (hf : f.Proper) : (Reading.only f hf).loop? f.desugared = some f :=
  if_pos rfl

/-- The tokens after the word `for` read as these clauses and body. -/
inductive Grammar.ReadsClauses : List Token → ForLoop → Prop
  | mk {left semicolon right : Token} {t u v w : List Token} {f : ForLoop} {isOpen : Bool} :
    left.kind = .mark .leftParen → ReadsForStart t f.initializer → ReadsOptional u f.condition →
    semicolon.kind = .mark .semicolon → ReadsOptional v f.increment → right.kind = .mark .rightParen →
    ReadsStmt w f.body isOpen → ReadsClauses (left :: (t ++ (u ++ semicolon :: (v ++ right :: w)))) f

theorem Grammar.ReadsClauses.proper {w : List Token} {f : ForLoop} (h : ReadsClauses w f) : f.Proper := by
  obtain ⟨-, hstart, -, -, -, -, hbody⟩ := h
  refine ⟨fun s hs => ?_, (stmt_formed hbody).1⟩
  rw [Option.mem_def.1 hs] at hstart
  cases hstart with
  | var _ h => cases h <;> exact .inl ⟨_, _, rfl⟩
  | expression h =>
    cases h
    exact .inr ⟨_, rfl⟩

/-- What is built for a `for` is the loop that stands for the clauses in the tokens. -/
theorem Parse.forStatement_clauses (fuel : Nat) :
    Accepts (forStatement fuel) fun w _ s => ∃ f : ForLoop, f.desugared = s ∧ Grammar.ReadsClauses w f := by
  cases fuel with
  | zero =>
    intro s a s' h
    cases h
  | succ fuel =>
    unfold forStatement
    refine .expect fun left hl => .bind (forInitializer_accepts fuel) fun initializer t => ?_
    refine .bind (expressionUnless_accepts fuel _) fun condition u => .expect fun semicolon hs => ?_
    refine .bind (expressionUnless_accepts fuel _) fun increment v => .expect fun right hr => ?_
    refine .bindRest (stmtAccepts fuel).statement fun body w => .pure fun rest hbody hi hc hstart => ?_
    obtain ⟨isOpen, hbody, -⟩ := hbody
    refine ⟨⟨initializer, condition, increment, body⟩, rfl, ?_⟩
    simpa using Grammar.ReadsClauses.mk (f := ⟨initializer, condition, increment, body⟩) (Token.isMark_iff.1 hl)
      hstart hc (Token.isMark_iff.1 hs) hi (Token.isMark_iff.1 hr) hbody

theorem Reading.runAll_inStep {T : TwoRuns} {lag : Lag} {fuel fuel' : Nat} (h : lag.Spares 0 fuel fuel') {k : Layers}
    {ss : List Stmt} (hs : ∀ s ∈ ss, s.Aligned T k) (W : World) :
    InStep T lag W k Equal (T.reading.runAll T.direct fuel ss) (Interpreter.runAll T.desugared fuel' ss) := by
  induction ss generalizing W with
  | nil => exact .pure rfl
  | cons s ss ih =>
    obtain ⟨hs, hss⟩ := List.forall_mem_cons.1 hs
    exact .bind ((inStepAt T h).execute W k s hs) fun W _ _ _ _ => ih hss W

/-- What is to see when a run has ended. -/
structure Aftermath where
  printed : Array String
  error : Option RuntimeError
  /-- The texts of the globals that have a value. -/
  globals : String → Option String

/-- The text of a global that has a value. -/
def Machine.globalText (m : Machine) (x : String) : Option String :=
  (m.store.getHere? Machine.globals x).map Value.display

def Eval.Outcome.aftermath {α : Type} : Outcome α → Option Aftermath
  | .done _ m => some ⟨m.printed, none, m.globalText⟩
  | .failed e m => some ⟨m.printed, some e, m.globalText⟩
  | .exhausted => none

/-- Functions and instances show no scopes in their texts, so globals look the same in both. -/
theorem Machine.Mirrors.globalText_eq {T : TwoRuns} {W : World} {m m' : Machine} (h : m.Mirrors T W m') :
    m'.globalText = m.globalText := by
  funext x
  exact (h.store.cell _ _ h.store.shares_globals x).join.map_eq fun _ _ hv => hv.same.display_eq

/-- If the run that does not lag has come to an end, the other one comes to the same. -/
theorem Eval.Outcome.InStep.aftermath {α : Type} {T : TwoRuns} {lag : Lag} {W : World} {s s' : ScopeId}
    {Q : World → α → α → Prop} {o o' : Outcome α} (h : Outcome.InStep T lag W s s' Q o o') (seen : Aftermath) :
    (lag = .direct → o.aftermath = some seen → o'.aftermath = some seen) ∧
      (lag = .desugared → o'.aftermath = some seen → o.aftermath = some seen) := by
  cases h with
  | done _ hm => simp [Outcome.aftermath, hm.printed, hm.globalText_eq]
  | failed _ hm => simp [Outcome.aftermath, hm.printed, hm.globalText_eq]
  | direct hlag => simp [Outcome.aftermath, hlag]
  | desugared hlag => simp [Outcome.aftermath, hlag]

namespace Interpreter

variable {echo : Bool} {source : String} {n : OccurrenceId} {i : Interpreter}

/-- What the parser builds for a `for` does what its clauses say. It is the loop that stands for the clauses in the
tokens, and they may be read so. In a program accepted by parser and binding, with any of its loops read so, every
occurrence leads to the same scope whether these are run by their clauses or as they were built. Where the machines
mirror each other, one such loop run by its clauses then comes to what was built for it: the same flow or the same
error, in machines that mirror each other again; and one run ends if the other does, with fuel enough. So do the two
runs of the whole program on a fresh interpreter, which print the same, end in the same error if in one, and leave the
same globals. -/
theorem for_runs_by_its_clauses (r : Reading) (hp : (Parsed.ofTokens (Token.ofSource source) n).errors = [])
    (hb : initial.bind (Program.ofSource echo source n) = .ok i) (clock : Clock) :
    let program := Program.ofSource echo source n
    let T := r.runs i program clock
    (∀ fuel, Parse.Accepts (Parse.forStatement fuel) fun w _ s =>
      ∃ f : ForLoop, f.desugared = s ∧ Grammar.ReadsClauses w f ∧ ∃ r' : Reading, r'.loop? s = some f) ∧
    (∀ s ∈ program, s.Aligned T []) ∧
    (∀ s f k, r.loop? s = some f → s.Aligned T k → ∀ (lag : Lag) fuel fuel', lag.Spares 0 (fuel + 1) fuel' →
      ∀ W, InStep T lag W k (MirrorFlow T) (r.runFor T.direct fuel f) (Eval.execute T.desugared fuel' s)) ∧
    ∀ seen, (∃ fuel, (r.runAll T.direct fuel program .initial).aftermath = some seen) ↔
      ∃ fuel, (runAll T.desugared fuel program .initial).aftermath = some seen := by
  intro program T
  have haligned := r.runs_aligned (Program.ofSource_read echo hp) hb clock
  have hrun : ∀ (lag : Lag) fuel fuel', lag.Spares 0 fuel fuel' →
      Outcome.InStep T lag .initial Machine.globals Machine.globals Equal
        (r.runAll T.direct fuel program .initial) (runAll T.desugared fuel' program .initial) :=
    fun lag fuel fuel' h => Reading.runAll_inStep h haligned .initial _ _ (Machine.initial_mirrors T) rfl
  refine ⟨?_, haligned, ?_, fun seen => ⟨?_, ?_⟩⟩
  · intro fuel
    refine (Parse.forStatement_clauses fuel).mono fun w _ s h => ?_
    obtain ⟨f, rfl, hf⟩ := h
    exact ⟨f, rfl, hf, .only f hf.proper, Reading.only_loop? f hf.proper⟩
  · intro s f k hr hs lag fuel fuel' h W
    rw [← Reading.execute_of_loop hr]
    exact (inStepAt T h).execute W k s hs
  · rintro ⟨fuel, hend⟩
    exact ⟨4 * fuel, ((hrun .direct fuel (4 * fuel) (Nat.le_refl _)).aftermath seen).1 rfl hend⟩
  · rintro ⟨fuel, hend⟩
    exact ⟨fuel, ((hrun .desugared fuel fuel (Nat.le_refl _)).aftermath seen).2 rfl hend⟩

/-- A function that outlives the loop in whose body it is declared. -/
def keepsLoopVariable : String :=
  "var f; for (var i = 0; i < 2; i = i + 1) { fun g() { return i; } f = g; } print f();"

/-- The clauses of a `for` that has all three. -/
def allClauses? : Stmt → Option ForLoop
  | .block [.var name value, .loop condition (.block [.block body, .expression increment])] =>
    some ⟨some (.var name value), some condition, some increment, .block body⟩
  | _ => none

/-- The clauses that are found are those of a loop that stands for them. -/
theorem allClauses?_desugared {s : Stmt} {f : ForLoop} (h : allClauses? s = some f) :
    f.desugared = s ∧ f.Proper := by
  unfold allClauses? at h
  split at h
  · cases h
    exact ⟨rfl, by simp, rfl⟩
  · cases h

/-- All turns of a loop share its variable. -/
theorem loop_variable_is_shared :
    let program := Program.ofSource false keepsLoopVariable 0
    let i := initial.bound program
    ∃ f : ForLoop, ∃ hf : f.Proper, f.desugared ∈ program ∧ f.initializer.isSome ∧
      ∃ fuel seen, ((Reading.only f hf).runAll ((Reading.only f hf).runs i program .ticking).direct fuel program
        .initial).aftermath = some seen ∧ seen.printed = #["2"] ∧ seen.error = none := by
  intro program i
  have hp : (Parsed.ofTokens (Token.ofSource keepsLoopVariable) 0).errors = [] := by decide +kernel
  have hb : initial.bind program = .ok i := bind_eq_bound (by decide +kernel)
  have hloop : (program.any fun s => (allClauses? s).any fun f => f.initializer.isSome) = true := by decide +kernel
  have hend : (runAll ⟨i.distances, .ticking⟩ 60 program .initial).aftermath.map (fun e => (e.printed, e.error)) =
      some (#["2"], none) := by decide +kernel
  obtain ⟨s, hs, hf⟩ := List.any_eq_true.1 hloop
  cases hl : allClauses? s with
  | none => simp [hl] at hf
  | some f =>
    obtain ⟨hd, hproper⟩ := allClauses?_desugared hl
    obtain ⟨seen, hend, he⟩ := Option.map_eq_some_iff.1 hend
    obtain ⟨-, -, -, hruns⟩ := for_runs_by_its_clauses (.only f hproper) hp hb .ticking
    obtain ⟨fuel, hdirect⟩ := (hruns seen).2 ⟨60, hend⟩
    have hstart : f.initializer.isSome := by simpa [hl] using hf
    exact ⟨f, hproper, hd ▸ hs, hstart, fuel, seen, hdirect, congrArg Prod.fst he, congrArg Prod.snd he⟩

end Interpreter

end LoxLang
