import LoxLang.Session

namespace LoxLang

/-- A source without lexical errors, without syntax errors and without breaches of the rules on names. -/
structure Source.Accepted (source : String) : Prop where
  lexical : LexicalError.ofSource source = []
  grammar : (Parsed.ofTokens (Token.ofSource source) 0).errors = []
  binding : ∃ b, Binding.ofProgram (Parsed.ofTokens (Token.ofSource source) 0).statements = .ok b

/-- What a run writes: the lines printed, and the error that stopped it. -/
def Write.ofRun (printed : List String) (error : Option RuntimeError) : List Write :=
  printed.map (fun line => ⟨.out, line ++ "\n"⟩) ++ (error.map fun e => ⟨.err, e.message ++ "\n"⟩).toList

namespace Session

/-- After a run that ended in the state told. -/
def finished (s : Session) (error : Option RuntimeError) (i : Interpreter) : Session where
  interpreter := i.takePrinted.2
  nextId := s.nextId
  hadError := s.hadError
  hadRuntimeError := s.hadRuntimeError || error.isSome
  written := s.written ++ (Write.ofRun i.takePrinted.1 error).toArray

/-- A line that is written ends in a newline, on the standard output. -/
theorem writeLines_eq (s : Session) (lines : List String) :
    s.writeLines lines = { s with written := s.written ++ (Write.ofRun lines none).toArray } := by
  induction lines generalizing s with
  | nil => simp [writeLines, Write.ofRun]
  | cons line lines ih =>
    have h := ih (s.writeLine .out line)
    change (s.writeLine .out line).writeLines lines = _
    rw [h]
    simp [Write.ofRun, writeLine, write]

theorem afterRun_eq (s : Session) (r : Option RuntimeError × Interpreter) : s.afterRun r = s.finished r.1 r.2 := by
  obtain ⟨error, i⟩ := r
  simp only [afterRun, writeLines_eq]
  cases error with
  | none => simp [finished]
  | some e => simp [finished, report, writeLine, write, Diagnostic.isStatic, Diagnostic.message, Write.ofRun]

theorem runProgram_eq {s : Session} {program : List Stmt} {i : Interpreter}
    (hb : s.interpreter.bind program = .ok i) (c : Conditions) :
    s.runProgram c program = (i.interpret c program).map fun r => s.finished r.1 r.2 := by
  have hstart : s.startProgram program = .awaits i program s.afterRun := by
    rw [startProgram, hb]
  rw [runProgram, hstart, ← funext s.afterRun_eq]
  rfl

/-- A program in breach of the rules is reported, and nothing of it runs. -/
theorem runProgram_of_error {s : Session} {program : List Stmt} {es : List BindingError}
    (h : s.interpreter.bind program = .error es) (c : Conditions) : s.runProgram c program =
      some (({ s with interpreter := s.interpreter.forgetTopLevel } : Session).reportAll (es.map .binding)) := by
  rw [runProgram, startProgram, h]
  rfl

/-- Nothing runs if a static error has been reported by the time the source is read. -/
theorem run_eq_parse (s : Session) (c : Conditions) (echo : Bool) (source : String) :
    s.run c echo source = match s.parse source with
      | (none, s) => some s
      | (some program, s) => s.runProgram c (if echo then program.map Stmt.echoed else program) := by
  unfold run start
  obtain ⟨_ | program, s'⟩ := s.parse source <;> rfl

/-- The status is that of the session as it is when the source has run. -/
theorem runSource_eq_run (s : Session) (c : Conditions) (source : String) :
    s.runSource c source = (s.run c false source).map fun s' => (s'.status, s') :=
  Pending.under_map c _ (s.start false source)

/-- Only a line that holds a program waits for a run. -/
theorem answerLine_eq (s : Session) (c : Conditions) (bytes : List UInt8) :
    s.answerLine c bytes = match Text.Utf8.decode bytes with
      | .error _ => .stopped .input s
      | .ok cs =>
        match Line.ofChars cs with
        | .file path => .file path s
        | .trees source => .next (s.printTrees source).clearFlags
        | .program source => (s.run c true source).elim .exhausted fun s => .next s.clearFlags := by
  unfold answerLine startLine
  cases Text.Utf8.decode bytes with
  | error e => rfl
  | ok cs =>
    dsimp only
    cases Line.ofChars cs with
    | file path => rfl
    | trees source => rfl
    | program source =>
      dsimp only
      rw [Pending.under_map, run]
      cases (s.start true source).under c <;> rfl

theorem run_eq {s : Session} {source : String} {program : List Stmt} {n : OccurrenceId} {i : Interpreter}
    (hs : s.hadError = false) (hl : LexicalError.ofSource source = [])
    (hp : Parsed.ofTokens (Token.ofSource source) s.nextId = ⟨program, [], n⟩)
    (hb : s.interpreter.bind program = .ok i) (c : Conditions) :
    s.run c false source =
      (i.interpret c program).map fun r => { s with nextId := n }.finished r.1 r.2 := by
  have hparse : s.parse source = (some program, { s with nextId := n }) := by
    simp [parse, hl, hp, reportAll, hs]
  rw [run_eq_parse, hparse]
  exact runProgram_eq (s := { s with nextId := n }) hb c

end Session

end LoxLang
