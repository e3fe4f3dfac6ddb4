import LoxLang.Proofs.Scope.Noted
import LoxLang.Proofs.Grammar.Seam
import LoxLang.Proofs.Token.Seam
import LoxLang.Proofs.Session.Accepted

namespace LoxLang

namespace Interpreter

/-- Drop the distances of occurrences. -/
def forget (i : Interpreter) (ids : List OccurrenceId) : Interpreter :=
  { i with distances := ids.foldl (fun t id => t.erase id) i.distances }

/-- Note all that the walk over a program finds, whether or not it ends with errors. -/
def noteAll (i : Interpreter) (program : List Stmt) : Interpreter :=
  i.addBinding ⟨(Binding.walk program).distances.toList, (Binding.walk program).topLevel.toList⟩

/-- Note what the walk finds, and if it ends with errors drop that again. With `drops` false nothing is ever
dropped. -/
def bindOnTheWay (drops : Bool) (i : Interpreter) (program : List Stmt) : List BindingError × Interpreter :=
  let w := Binding.walk program
  let i := i.noteAll program
  (w.errors.toList, if drops && !w.errors.isEmpty then i.forget (w.distances.toList.map Prod.fst) else i)

/-- After a program nothing outside functions is needed any more. -/
def settle (drops : Bool) (i : Interpreter) : Interpreter := if drops then i.forgetTopLevel else i

def interpretOnTheWay (drops : Bool) (i : Interpreter) (c : Conditions) (program : List Stmt) :
    Option (Option RuntimeError × Interpreter) :=
  match runAll (i.setting c) c.fuel program i.machine with
  | .done _ m => some (none, { i with machine := m }.settle drops)
  | .failed e m => some (some e, { i with machine := m }.settle drops)
  | .exhausted => none

end Interpreter

namespace Session

/-- The session with another interpreter. -/
def on (s : Session) (i : Interpreter) : Session := { s with interpreter := i }

/-- Bind the names of a program on the way, and run it. -/
def runProgramOnTheWay (drops : Bool) (s : Session) (c : Conditions) (program : List Stmt) : Option Session :=
  match s.interpreter.bindOnTheWay drops program with
  | ([], i) => (i.interpretOnTheWay drops c program).map fun r => s.finished r.1 r.2
  | (es, i) => some ((s.on (i.settle drops)).reportAll (es.map .binding))

def runOnTheWay (drops : Bool) (s : Session) (c : Conditions) (echo : Bool) (source : String) : Option Session :=
  match s.parse source with
  | (none, s) => some s
  | (some program, s) => s.runProgramOnTheWay drops c (if echo then program.map Stmt.echoed else program)

/-- What a session is given. -/
inductive Given where
  | source (conditions : Conditions) (text : String)
  /-- A line at the prompt. A file it names is given as a source of its own. -/
  | line (conditions : Conditions) (bytes : List UInt8)

namespace Given

def conditions : Given → Conditions
  | .source c _ | .line c _ => c

/-- The source that is to run, and whether bare expressions print their values. -/
def program? : Given → Option (Bool × String)
  | .source _ text => some (false, text)
  | .line _ bytes =>
    match Text.Utf8.decode bytes with
    | .error _ => none
    | .ok cs =>
      match Line.ofChars cs with
      | .program text => some (true, text)
      | _ => none

/-- What is done after the run: the errors of a line are forgotten. -/
def close : Given → Session → Session
  | .source _ _, s => s
  | .line _ _, s => s.clearFlags

end Given

/-- The session after it has dealt with what it is given. -/
def feed (s : Session) : Given → Option Session
  | .source c text => (s.runSource c text).map Prod.snd
  | .line c bytes =>
    match s.answerLine c bytes with
    | .next s | .file _ s | .stopped _ s => some s
    | .exhausted => none

/-- The same with names bound on the way. -/
def feedOnTheWay (drops : Bool) (s : Session) (g : Given) : Option Session :=
  match g.program? with
  | some (echo, source) => (s.runOnTheWay drops g.conditions echo source).map g.close
  | none => s.feed g

/-- The program that comes to run, if there is one and its names obey the rules. -/
def accepted? (s : Session) (g : Given) : Option (List Stmt) := do
  let (echo, source) ← g.program?
  let program ← (s.parse source).1
  let program := if echo then program.map Stmt.echoed else program
  if (s.interpreter.bind program).toOption.isSome then pure program else none

/-- A session that has been fed, and the programs that it has accepted. -/
inductive Fed : List (List Stmt) → Session → Prop
  | initial : Fed [] .initial
  | feed {programs : List (List Stmt)} {s s' : Session} {g : Given} (h : Fed programs s) (hg : s.feed g = some s') :
    Fed (programs ++ (s.accepted? g).toList) s'

@[simp]
theorem on_interpreter (s : Session) (i : Interpreter) : (s.on i).interpreter = i := rfl

theorem on_self (s : Session) : s.on s.interpreter = s := rfl

theorem report_on (s : Session) (i : Interpreter) (d : Diagnostic) : (s.on i).report d = (s.report d).on i := by
  unfold report
  dsimp only
  split <;> rfl

/-- Reports have nothing to do with the interpreter. -/
theorem reportAll_on (s : Session) (i : Interpreter) (ds : List Diagnostic) :
    (s.on i).reportAll ds = (s.reportAll ds).on i := by
  induction ds generalizing s with
  | nil => rfl
  | cons d ds ih =>
    change ((s.on i).report d).reportAll ds = ((s.report d).reportAll ds).on i
    rw [report_on, ih]

theorem reportAll_interpreter (s : Session) (ds : List Diagnostic) :
    (s.reportAll ds).interpreter = s.interpreter := by
  have h := reportAll_on s s.interpreter ds
  rw [on_self] at h
  rw [h, on_interpreter]

theorem reportAll_nextId (s : Session) (ds : List Diagnostic) : (s.reportAll ds).nextId = s.nextId := by
  induction ds generalizing s with
  | nil => rfl
  | cons d ds ih =>
    have hd : (s.report d).nextId = s.nextId := by
      unfold report
      dsimp only
      split <;> rfl
    exact (ih (s.report d)).trans hd

/-- Static errors that are reported raise the flag, so where it is down there were none. -/
theorem hadError_reportAll {s : Session} {ds : List Diagnostic} (hs : ∀ d ∈ ds, d.isStatic)
    (h : (s.reportAll ds).hadError = false) : ds = [] ∧ s.hadError = false := by
  induction ds generalizing s with
  | nil => exact ⟨rfl, h⟩
  | cons d ds ih =>
    have hrest := (ih (fun d hd => hs d (List.mem_cons_of_mem _ hd)) h).2
    unfold report at hrest
    rw [if_pos (hs d List.mem_cons_self)] at hrest
    cases hrest

theorem writeLines_on (s : Session) (i : Interpreter) (lines : List String) :
    (s.on i).writeLines lines = (s.writeLines lines).on i := by
  rw [writeLines_eq, writeLines_eq]
  rfl

theorem parse_on (s : Session) (i : Interpreter) (source : String) :
    (s.on i).parse source = ((s.parse source).1, (s.parse source).2.on i) := by
  have hnext : (s.on i).nextId = s.nextId := rfl
  unfold parse
  simp only [reportAll_on, hnext]
  generalize (s.reportAll _).reportAll _ = r
  by_cases hr : r.hadError = true
  · simp [on, hr]
  · simp [on, hr]

/-- Identities are given out for a source even if it has errors. -/
theorem parse_nextId (s : Session) (source : String) :
    (s.parse source).2.nextId = (Parsed.ofTokens (Token.ofSource source) s.nextId).nextId := by
  unfold parse
  dsimp only
  split <;> rfl

/-- A source without errors leaves only its identities behind. -/
theorem parse_some {s s' : Session} {source : String} {program : List Stmt} (h : s.parse source = (some program, s')) :
    (Parsed.ofTokens (Token.ofSource source) s.nextId).errors = [] ∧
      program = (Parsed.ofTokens (Token.ofSource source) s.nextId).statements ∧
      s' = { s with nextId := (Parsed.ofTokens (Token.ofSource source) s.nextId).nextId } := by
  unfold parse at h
  dsimp only at h
  split at h
  · cases h
  · next hno =>
    cases h
    have hno : (Session.reportAll (s.reportAll ((LexicalError.ofSource source).map .lexical))
        ((Parsed.ofTokens (Token.ofSource source) s.nextId).errors.map .grammar)).hadError = false := by
      simpa using hno
    obtain ⟨hgrammar, hrest⟩ := hadError_reportAll (by simp [Diagnostic.isStatic]) hno
    obtain ⟨hlexical, -⟩ := hadError_reportAll (by simp [Diagnostic.isStatic]) hrest
    refine ⟨List.map_eq_nil_iff.1 hgrammar, rfl, ?_⟩
    rw [hgrammar, hlexical]
    rfl

/-- Identities are given out in order. -/
theorem nextId_le (source : String) (n : OccurrenceId) :
    n ≤ (Parsed.ofTokens (Token.ofSource source) n).nextId := by
  have hfinish : ∃ t ∈ Token.ofSource source, t.kind = .finish := by
    rw [Source.token_ofSource_eq]
    exact ⟨_, List.mem_append_right _ (List.mem_singleton_self _), rfl⟩
  have h := congrArg Parsed.nextId (Parse.ofTokens_relabel id n hfinish 0)
  have htokens : (Token.ofSource source).map (Token.relined id) = Token.ofSource source := List.map_id _
  simp only [htokens, Nat.zero_add] at h
  exact Nat.le_trans (Nat.le_add_left _ _) (Nat.le_of_eq h.symm)

/-- A run gives out no identities. -/
theorem runProgram_nextId {s s' : Session} {c : Conditions} {program : List Stmt}
    (h : s.runProgram c program = some s') : s'.nextId = s.nextId := by
  cases hb : s.interpreter.bind program with
  | error es =>
    rw [runProgram_of_error hb] at h
    cases h
    exact reportAll_nextId _ _
  | ok i =>
    rw [runProgram_eq hb, Option.map_eq_some_iff] at h
    obtain ⟨r, -, rfl⟩ := h
    rfl

theorem feed_of_program {g : Given} {echo : Bool} {source : String} (h : g.program? = some (echo, source))
    (s : Session) : s.feed g = (s.run g.conditions echo source).map g.close := by
  cases g with
  | source c text =>
    obtain ⟨rfl, rfl⟩ : false = echo ∧ text = source := by simpa [Given.program?] using h
    change (s.runSource c text).map Prod.snd = (s.run c false text).map id
    rw [runSource_eq_run, Option.map_map]
    rfl
  | line c bytes =>
    unfold Given.program? at h
    simp only [feed, answerLine_eq]
    cases hd : Text.Utf8.decode bytes with
    | error e => simp [hd] at h
    | ok cs =>
      cases hl : Line.ofChars cs with
      | file path => simp [hd, hl] at h
      | trees text => simp [hd, hl] at h
      | program text =>
        simp only [hd, hl, Option.some.injEq, Prod.mk.injEq] at h
        obtain ⟨rfl, rfl⟩ := h
        cases hr : s.run c true text <;> simp [hl, hr, Given.conditions, Given.close]

theorem printTrees_on (s : Session) (i : Interpreter) (source : String) :
    (s.on i).printTrees source = (s.printTrees source).on i := by
  unfold printTrees
  rw [parse_on]
  cases hp : s.parse source with
  | mk program s' =>
    cases program with
    | none => rfl
    | some program => exact writeLines_on s' i _

theorem printTrees_nextId_eq (s : Session) (source : String) :
    (s.printTrees source).nextId = (Parsed.ofTokens (Token.ofSource source) s.nextId).nextId := by
  have hparse := parse_nextId s source
  unfold printTrees
  cases hp : s.parse source with
  | mk program s' =>
    rw [hp] at hparse
    cases program with
    | none => exact hparse
    | some program =>
      simp only [writeLines_eq]
      exact hparse

theorem printTrees_nextId (s : Session) (source : String) : s.nextId ≤ (s.printTrees source).nextId := by
  rw [printTrees_nextId_eq]
  exact nextId_le source s.nextId

/-- What runs no program leaves the interpreter alone. -/
theorem feed_of_none {g : Given} (h : g.program? = none) (s : Session) :
    ∃ s' : Session, (∀ i, (s.on i).feed g = some (s'.on i)) ∧ s.nextId ≤ s'.nextId := by
  cases g with
  | source c text => cases h
  | line c bytes =>
    unfold Given.program? at h
    simp only [feed, answerLine_eq]
    cases hd : Text.Utf8.decode bytes with
    | error e => exact ⟨s, fun i => by simp, Nat.le_refl _⟩
    | ok cs =>
      cases hl : Line.ofChars cs with
      | file path => exact ⟨s, fun i => by simp [hl], Nat.le_refl _⟩
      | trees text =>
        refine ⟨(s.printTrees text).clearFlags, fun i => ?_, printTrees_nextId s text⟩
        simp only [hl, printTrees_on]
        rfl
      | program text => simp [hd, hl] at h

end Session

end LoxLang
