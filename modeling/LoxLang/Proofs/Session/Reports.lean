import LoxLang.Proofs.Session.Forgetting

namespace LoxLang

/-- The line that reports an error. -/
def Diagnostic.line (d : Diagnostic) : String := d.message ++ "\n"

/-- What is found while a source is read: all that is wrong with its tokens, then with its grammar. -/
def Source.readingErrors (text : String) (n : OccurrenceId) : List Diagnostic :=
  (LexicalError.ofSource text).map .lexical ++ (Parsed.ofTokens (Token.ofSource text) n).errors.map .grammar

/-- What is found in a program after that: its breaches of the rules on names, or else the error that stops its run. -/
def Interpreter.programErrors (i : Interpreter) (c : Conditions) (program : List Stmt) : List Diagnostic :=
  match i.bind program with
  | .error es => es.map .binding
  | .ok i => (((i.interpret c program).bind Prod.fst).map Diagnostic.runtime).toList

/-- What is found in a source that is to run. The program is left alone when the source has errors or when its run is
barred. -/
def Source.errors (barred : Bool) (i : Interpreter) (n : OccurrenceId) (c : Conditions) (text : String) :
    List Diagnostic :=
  let found := readingErrors text n
  if barred || !found.isEmpty then found
  else i.programErrors c (Parsed.ofTokens (Token.ofSource text) n).statements

/-- The contents of a file of UTF-8. -/
structure TextFile where
  bytes : List UInt8
  text : List Char
  decodes : Text.Utf8.decode bytes = .ok text

/-- What a session is asked for. -/
inductive Request where
  | source (conditions : Conditions) (text : String)
  | file (conditions : Conditions) (contents : TextFile)
  | trees (text : String)
  | tokens (json : Bool) (text : String)

namespace Request

/-- The errors that the phases return. -/
def errors (barred : Bool) (i : Interpreter) (n : OccurrenceId) : Request → List Diagnostic
  | .source c text => Source.errors barred i n c text
  | .file c contents => Source.errors barred i n c (String.ofList contents.text)
  | .trees text => Source.readingErrors text n
  | .tokens _ text => (LexicalError.ofSource text).map .lexical

/-- Static errors stand in the way of all but the tokens. -/
def heeds : Request → Bool
  | .tokens _ _ => false
  | _ => true

end Request

namespace Session

def perform (s : Session) : Request → Option (Except Failure ExitStatus × Session)
  | .source c text => (s.runSource c text).map fun r => (.ok r.1, r.2)
  | .file c contents => s.runFile c (.ok contents.bytes)
  | .trees text => some (.ok (s.printTrees text).status, s.printTrees text)
  | .tokens json text => some (.ok (s.printTokens json text).status, s.printTokens json text)

def textOn (s : Session) (stream : Stream) : String := Write.textOn stream s.written.toList

/-- A session that has answered requests, and the errors found for each of them. -/
inductive Answered : List (List Diagnostic) → Session → Prop
  | initial : Answered [] .initial
  | perform {reports : List (List Diagnostic)} {s s' : Session} {r : Request} {outcome : Except Failure ExitStatus}
      (h : Answered reports s) (hr : s.perform r = some (outcome, s')) :
      Answered (reports ++ [r.errors (reports.flatten.any Diagnostic.isStatic) s.interpreter s.nextId]) s'

variable {s s' : Session} {es ds : List Diagnostic} {r : Request} {c : Conditions} {text : String}

/-- What reporting errors does. -/
theorem reportAll_eq (s : Session) (ds : List Diagnostic) :
    s.reportAll ds = { s with
      hadError := s.hadError || ds.any Diagnostic.isStatic
      hadRuntimeError := s.hadRuntimeError || ds.any fun d => !d.isStatic
      written := s.written ++ (ds.map fun d => (⟨.err, d.line⟩ : Write)).toArray } := by
  induction ds generalizing s with
  | nil => simp [reportAll]
  | cons d ds ih =>
    have hrest : s.reportAll (d :: ds) = (s.report d).reportAll ds := rfl
    rw [hrest, ih]
    cases hd : d.isStatic <;> simp [report, hd, writeLine, write, Diagnostic.line]

theorem reportAll_append (s : Session) (ds es : List Diagnostic) :
    s.reportAll (ds ++ es) = (s.reportAll ds).reportAll es :=
  List.foldl_append

/-- Each error is one line on the error stream, after all that stood there. -/
theorem textOn_err_reportAll (s : Session) (ds : List Diagnostic) :
    (s.reportAll ds).textOn .err = s.textOn .err ++ String.join (ds.map Diagnostic.line) := by
  rw [reportAll_eq]
  simp [Session.textOn, Write.textOn, List.filter_map, Function.comp_def]

/-- No error is reported on the standard output. -/
theorem textOn_out_reportAll (s : Session) (ds : List Diagnostic) :
    (s.reportAll ds).textOn .out = s.textOn .out := by
  rw [reportAll_eq]
  simp [Session.textOn, Write.textOn, List.filter_map, Function.comp_def]

theorem textOn_err_writeLines (s : Session) (lines : List String) :
    (s.writeLines lines).textOn .err = s.textOn .err := by
  rw [writeLines_eq]
  simp [Session.textOn, Write.textOn, Write.ofRun, List.filter_map, Function.comp_def]

/-- The flags and the error stream of a session tell which errors it has reported. -/
structure Accounted (es : List Diagnostic) (s : Session) : Prop where
  stderr : s.textOn .err = String.join (es.map Diagnostic.line)
  hadError : s.hadError = es.any Diagnostic.isStatic
  hadRuntimeError : s.hadRuntimeError = es.any fun d => !d.isStatic

namespace Accounted

theorem initial : Accounted [] .initial := ⟨rfl, rfl, rfl⟩

theorem reportAll (h : Accounted es s) (ds : List Diagnostic) : Accounted (es ++ ds) (s.reportAll ds) where
  stderr := by rw [textOn_err_reportAll, h.stderr, List.map_append, String.join_append]
  hadError := by rw [reportAll_eq, List.any_append, ← h.hadError]
  hadRuntimeError := by rw [reportAll_eq, List.any_append, ← h.hadRuntimeError]

theorem writeLines (h : Accounted es s) (lines : List String) : Accounted es (s.writeLines lines) where
  stderr := by rw [textOn_err_writeLines, h.stderr]
  hadError := by rw [writeLines_eq, ← h.hadError]
  hadRuntimeError := by rw [writeLines_eq, ← h.hadRuntimeError]

/-- Neither the interpreter nor the identities matter. -/
theorem congr (h : Accounted es s) (i : Interpreter) (n : OccurrenceId) :
    Accounted es { s with interpreter := i, nextId := n } :=
  ⟨h.stderr, h.hadError, h.hadRuntimeError⟩

/-- Something stands on the error stream as soon as an error has been reported. -/
theorem stderr_eq_empty_iff (h : Accounted es s) : s.textOn .err = "" ↔ es = [] := by
  rw [h.stderr]
  cases es with
  | nil => simp
  | cons d ds =>
    have hne : String.join ((d :: ds).map Diagnostic.line) ≠ "" := by
      intro he
      have hlist := congrArg String.toList he
      simp [Diagnostic.line] at hlist
    exact iff_of_false hne (List.cons_ne_nil d ds)

/-- The status tells which errors have been reported. -/
theorem status_code (h : Accounted es s) :
    (s.status.code = 65 ↔ ∃ d ∈ es, d.isStatic = true) ∧
    (s.status.code = 70 ↔ (∀ d ∈ es, d.isStatic = false) ∧ ∃ d ∈ es, d.isStatic = false) ∧
    (s.status.code = 0 ↔ es = []) := by
  have hstatic : s.hadError = true ↔ ∃ d ∈ es, d.isStatic = true := by rw [h.hadError, List.any_eq_true]
  have hrest : s.hadRuntimeError = true ↔ ∃ d ∈ es, d.isStatic = false := by simp [h.hadRuntimeError]
  have hnone : (∀ d ∈ es, d.isStatic = false) ↔ ¬∃ d ∈ es, d.isStatic = true := by simp
  have hempty : es = [] ↔ (¬∃ d ∈ es, d.isStatic = true) ∧ ¬∃ d ∈ es, d.isStatic = false := by
    cases es with
    | nil => simp
    | cons d ds => cases hd : d.isStatic <;> simp [hd]
  rw [hnone, hempty, ← hstatic, ← hrest]
  unfold status
  cases s.hadError <;> cases s.hadRuntimeError <;> simp [ExitStatus.code]

end Accounted

/-- What is wrong with a text is known before it runs. -/
theorem readingErrors_isStatic {n : OccurrenceId} {d : Diagnostic} (hd : d ∈ Source.readingErrors text n) :
    d.isStatic = true := by
  simp only [Source.readingErrors, List.mem_append, List.mem_map] at hd
  obtain ⟨e, -, rfl⟩ | ⟨e, -, rfl⟩ := hd <;> rfl

/-- All errors of reading are static. -/
theorem any_readingErrors (text : String) (n : OccurrenceId) :
    (Source.readingErrors text n).any Diagnostic.isStatic = !(Source.readingErrors text n).isEmpty := by
  cases h : Source.readingErrors text n with
  | nil => rfl
  | cons d ds =>
    have hd : d.isStatic = true := readingErrors_isStatic (h ▸ List.mem_cons_self)
    simp [hd]

/-- A session that has read a source. -/
def afterReading (s : Session) (text : String) : Session :=
  { s.reportAll (Source.readingErrors text s.nextId) with
    nextId := (Parsed.ofTokens (Token.ofSource text) s.nextId).nextId }

/-- A source is read to its end and reported, and its tree is given out only if nothing has been reported by then. -/
theorem parse_eq (s : Session) (text : String) :
    s.parse text = (if s.hadError || !(Source.readingErrors text s.nextId).isEmpty then none
      else some (Parsed.ofTokens (Token.ofSource text) s.nextId).statements, s.afterReading text) := by
  unfold parse
  dsimp only
  rw [← reportAll_append]
  change (if (s.reportAll (Source.readingErrors text s.nextId)).hadError = true then _ else _) = _
  have hflag : (s.reportAll (Source.readingErrors text s.nextId)).hadError =
      (s.hadError || !(Source.readingErrors text s.nextId).isEmpty) := by
    rw [reportAll_eq, ← any_readingErrors]
  rw [hflag]
  split <;> rfl

theorem parse_barred (h : (s.hadError || !(Source.readingErrors text s.nextId).isEmpty) = true) :
    s.parse text = (none, s.afterReading text) := by
  rw [parse_eq, if_pos h]

theorem parse_free (h : ¬(s.hadError || !(Source.readingErrors text s.nextId).isEmpty) = true) :
    s.parse text = (some (Parsed.ofTokens (Token.ofSource text) s.nextId).statements,
      { s with nextId := (Parsed.ofTokens (Token.ofSource text) s.nextId).nextId }) := by
  have hnone : Source.readingErrors text s.nextId = [] := by
    simp only [Bool.or_eq_true, not_or] at h
    simpa using h.2
  rw [parse_eq, if_neg h, afterReading, hnone]
  rfl

/-- After a run its lines are printed first. -/
theorem finished_eq (s : Session) (error : Option RuntimeError) (i : Interpreter) :
    s.finished error i =
      (({ s with interpreter := i.takePrinted.2 } : Session).writeLines i.takePrinted.1).reportAll
        (error.map Diagnostic.runtime).toList := by
  rw [reportAll_eq, writeLines_eq]
  cases error <;> simp [finished, Write.ofRun, Diagnostic.isStatic, Diagnostic.line, Diagnostic.message]

/-- A file is run as its text is. -/
theorem perform_file (s : Session) (c : Conditions) (contents : TextFile) :
    s.perform (.file c contents) = s.perform (.source c (String.ofList contents.text)) := by
  simp only [perform, runFile, startFile, contents.decodes, runSource, Pending.under_map]

/-- The outcome of a source is the status of the session after it. -/
theorem perform_source (s : Session) (c : Conditions) (text : String) :
    s.perform (.source c text) = (s.run c false text).map fun s' => (.ok s'.status, s') := by
  simp only [perform, runSource_eq_run, Option.map_map]
  rfl

theorem perform_source_eq_some {outcome : Except Failure ExitStatus} :
    s.perform (.source c text) = some (outcome, s') ↔ s.run c false text = some s' ∧ outcome = .ok s'.status := by
  rw [perform_source, Option.map_eq_some_iff]
  constructor
  · rintro ⟨s₁, hrun, hpair⟩
    cases hpair
    exact ⟨hrun, rfl⟩
  · rintro ⟨hrun, rfl⟩
    exact ⟨s', hrun, rfl⟩

/-- The outcome of a request is the status after it. -/
theorem perform_outcome {outcome : Except Failure ExitStatus} (h : s.perform r = some (outcome, s')) :
    outcome = .ok s'.status := by
  cases r with
  | source c text => exact (perform_source_eq_some.1 h).2
  | file c contents =>
    rw [perform_file] at h
    exact (perform_source_eq_some.1 h).2
  | trees text => cases h; rfl
  | tokens json text => cases h; rfl

namespace Accounted

theorem afterReading (h : Accounted es s) (text : String) :
    Accounted (es ++ Source.readingErrors text s.nextId) (s.afterReading text) :=
  (h.reportAll (Source.readingErrors text s.nextId)).congr _ _

theorem runProgram (h : Accounted es s) {program : List Stmt} (hr : s.runProgram c program = some s') :
    Accounted (es ++ s.interpreter.programErrors c program) s' := by
  unfold Interpreter.programErrors
  cases hb : s.interpreter.bind program with
  | error bs =>
    rw [runProgram_of_error hb] at hr
    cases hr
    exact (h.congr _ s.nextId).reportAll _
  | ok i =>
    rw [runProgram_eq hb, Option.map_eq_some_iff] at hr
    obtain ⟨⟨error, i'⟩, hrun, rfl⟩ := hr
    simp only [hrun, Option.bind_some]
    rw [finished_eq]
    exact ((h.congr _ s.nextId).writeLines _).reportAll _

/-- A source accounts for its errors of reading, of binding, or of its run. -/
theorem run (h : Accounted es s) (hr : s.run c false text = some s') :
    Accounted (es ++ Source.errors (es.any Diagnostic.isStatic) s.interpreter s.nextId c text) s' := by
  unfold Source.errors
  rw [← h.hadError]
  rw [run_eq_parse] at hr
  by_cases hbarred : (s.hadError || !(Source.readingErrors text s.nextId).isEmpty) = true
  · rw [parse_barred hbarred] at hr
    cases hr
    simp only [hbarred, if_true]
    exact h.afterReading text
  · rw [parse_free hbarred] at hr
    have hafter := (h.congr s.interpreter (Parsed.ofTokens (Token.ofSource text) s.nextId).nextId).runProgram hr
    simp only [hbarred]
    exact hafter

theorem printTrees (h : Accounted es s) (text : String) :
    Accounted (es ++ Source.readingErrors text s.nextId) (s.printTrees text) := by
  unfold Session.printTrees
  rw [parse_eq]
  split
  · next hparse =>
    obtain ⟨-, rfl⟩ := Prod.mk.inj hparse
    exact h.afterReading text
  · next hparse =>
    obtain ⟨-, rfl⟩ := Prod.mk.inj hparse
    exact (h.afterReading text).writeLines _

/-- For tokens only the lexical errors are found. -/
theorem printTokens (h : Accounted es s) (json : Bool) (text : String) :
    Accounted (es ++ (LexicalError.ofSource text).map .lexical) (s.printTokens json text) :=
  (h.reportAll _).writeLines _

/-- Every request adds its errors. -/
theorem perform (h : Accounted es s) {outcome : Except Failure ExitStatus}
    (hr : s.perform r = some (outcome, s')) :
    Accounted (es ++ r.errors (es.any Diagnostic.isStatic) s.interpreter s.nextId) s' := by
  cases r with
  | source c text => exact h.run (perform_source_eq_some.1 hr).1
  | file c contents =>
    rw [perform_file] at hr
    exact h.run (perform_source_eq_some.1 hr).1
  | trees text => cases hr; exact h.printTrees text
  | tokens json text => cases hr; exact h.printTokens json text

end Accounted

/-- Nothing has happened but reports of errors. -/
structure Unmoved (s s' : Session) : Prop where
  stdout : s'.textOn .out = s.textOn .out
  interpreter : s'.interpreter = s.interpreter

theorem Unmoved.afterReading (s : Session) (text : String) : Unmoved s (s.afterReading text) :=
  ⟨textOn_out_reportAll s _, reportAll_interpreter s _⟩

/-- A program in breach of the rules leaves nothing behind. -/
theorem Unmoved.runProgram {program : List Stmt} {bs : List BindingError}
    (hforget : s.interpreter.forgetTopLevel = s.interpreter) (hb : s.interpreter.bind program = .error bs) :
    ∃ s', s.runProgram c program = some s' ∧ Unmoved s s' := by
  refine ⟨_, runProgram_of_error hb c, ?_, ?_⟩
  · rw [textOn_out_reportAll]
    rfl
  · rw [reportAll_interpreter]
    exact hforget

/-- A source does nothing but report if errors bar it, old ones or its own. -/
theorem Unmoved.run (hforget : s.interpreter.forgetTopLevel = s.interpreter)
    (h : s.hadError = true ∨
      ∃ d ∈ Source.errors s.hadError s.interpreter s.nextId c text, d.isStatic = true) :
    ∃ s', s.run c false text = some s' ∧ Unmoved s s' := by
  rw [run_eq_parse]
  by_cases hbarred : (s.hadError || !(Source.readingErrors text s.nextId).isEmpty) = true
  · rw [parse_barred hbarred]
    exact ⟨_, rfl, .afterReading s text⟩
  · rw [parse_free hbarred]
    have hnot : s.hadError = false := by
      simp only [Bool.or_eq_true, not_or] at hbarred
      simpa using hbarred.1
    -- the error is one of the program, and its run has no static ones
    obtain ⟨d, hd, hstatic⟩ := h.resolve_left (by simp [hnot])
    unfold Source.errors at hd
    simp only [hbarred] at hd
    unfold Interpreter.programErrors at hd
    cases hb : s.interpreter.bind (Parsed.ofTokens (Token.ofSource text) s.nextId).statements with
    | error bs =>
      obtain ⟨s', hrun, hs'⟩ := Unmoved.runProgram (c := c)
        (s := { s with nextId := (Parsed.ofTokens (Token.ofSource text) s.nextId).nextId }) hforget hb
      exact ⟨s', hrun, hs'.stdout, hs'.interpreter⟩
    | ok i =>
      rw [hb] at hd
      obtain ⟨e, -, rfl⟩ := Option.map_eq_some_iff.1 (Option.mem_toList.1 hd)
      cases hstatic

/-- No tree is printed after an error. -/
theorem Unmoved.printTrees
    (h : s.hadError = true ∨ ∃ d ∈ Source.readingErrors text s.nextId, d.isStatic = true) :
    Unmoved s (s.printTrees text) := by
  have hbarred : (s.hadError || !(Source.readingErrors text s.nextId).isEmpty) = true := by
    rw [← any_readingErrors, Bool.or_eq_true, List.any_eq_true]
    exact h
  unfold Session.printTrees
  rw [parse_barred hbarred]
  exact .afterReading s text

/-- A request that heeds static errors comes to an end at once when there are any. -/
theorem Unmoved.perform (hforget : s.interpreter.forgetTopLevel = s.interpreter) (hr : r.heeds = true)
    (h : s.hadError = true ∨ ∃ d ∈ r.errors s.hadError s.interpreter s.nextId, d.isStatic = true) :
    ∃ s', s.perform r = some (.ok s'.status, s') ∧ Unmoved s s' := by
  cases r with
  | source c text =>
    obtain ⟨s', hrun, hs'⟩ := Unmoved.run hforget h
    exact ⟨s', perform_source_eq_some.2 ⟨hrun, rfl⟩, hs'⟩
  | file c contents =>
    obtain ⟨s', hrun, hs'⟩ := Unmoved.run hforget h
    rw [perform_file]
    exact ⟨s', perform_source_eq_some.2 ⟨hrun, rfl⟩, hs'⟩
  | trees text => exact ⟨_, rfl, .printTrees h⟩
  | tokens json text => cases hr

theorem Settled.perform {programs : List (List Stmt)} (h : Settled programs s.nextId s)
    {outcome : Except Failure ExitStatus} (hr : s.perform r = some (outcome, s')) :
    ∃ programs, Settled programs s'.nextId s' := by
  have hsource : ∀ c text, s.perform (.source c text) = some (outcome, s') →
      ∃ programs, Settled programs s'.nextId s' := by
    intro c text hr
    have hfeed : s.feed (.source c text) = some s' := by
      rw [feed_of_program (g := .source c text) rfl, Option.map_eq_some_iff]
      exact ⟨s', (perform_source_eq_some.1 hr).1, rfl⟩
    exact ⟨_, h.feed hfeed⟩
  cases r with
  | source c text => exact hsource c text hr
  | file c contents => exact hsource c _ (perform_file s c contents ▸ hr)
  | trees text =>
    cases hr
    have hi : (s.printTrees text).interpreter = s.interpreter := by
      have hon := printTrees_on s s.interpreter text
      rw [on_self] at hon
      rw [hon, on_interpreter]
    exact ⟨programs, (h.later (printTrees_nextId s text)).on_eq hi⟩
  | tokens json text =>
    cases hr
    have hn : (s.printTokens json text).nextId = s.nextId := by
      unfold printTokens
      rw [writeLines_eq]
      exact reportAll_nextId s _
    have hi : (s.printTokens json text).interpreter = s.interpreter := by
      unfold printTokens
      rw [writeLines_eq]
      exact reportAll_interpreter s _
    exact ⟨programs, (h.later (Nat.le_of_eq hn.symm)).on_eq hi⟩

theorem Answered.accounted {reports : List (List Diagnostic)} (h : Answered reports s) :
    Accounted reports.flatten s := by
  induction h with
  | initial => exact .initial
  | perform _ hr ih =>
    rw [List.flatten_append, List.flatten_singleton]
    exact ih.perform hr

theorem Answered.settled {reports : List (List Diagnostic)} (h : Answered reports s) :
    ∃ programs, Settled programs s.nextId s := by
  induction h with
  | initial => exact ⟨[], .initial⟩
  | perform _ hr ih =>
    obtain ⟨programs, hsettled⟩ := ih
    exact hsettled.perform hr

/-- What a request can find: errors of reading, the lexical ones first, or breaches of the rules on names, or at most
one error of a run. -/
inductive OfOnePhase : List Diagnostic → Prop
  | reading (ls : List LexicalError) (gs : List SyntaxError) : OfOnePhase (ls.map .lexical ++ gs.map .grammar)
  | binding (bs : List BindingError) : OfOnePhase (bs.map .binding)
  | running (error : Option RuntimeError) : OfOnePhase (error.map Diagnostic.runtime).toList

/-- What has errors in one phase does not come to the next. -/
theorem Source.errors_ofOnePhase (barred : Bool) (i : Interpreter) (n : OccurrenceId) (c : Conditions) (text : String) :
    OfOnePhase (Source.errors barred i n c text) := by
  unfold Source.errors
  dsimp only
  split
  · exact .reading _ _
  · unfold Interpreter.programErrors
    split
    · exact .binding _
    · exact .running _

theorem Request.errors_ofOnePhase (barred : Bool) (i : Interpreter) (n : OccurrenceId) (r : Request) :
    OfOnePhase (r.errors barred i n) := by
  cases r with
  | source c text => exact Source.errors_ofOnePhase _ _ _ _ _
  | file c contents => exact Source.errors_ofOnePhase _ _ _ _ _
  | trees text => exact .reading _ _
  | tokens json text =>
    have h := OfOnePhase.reading (LexicalError.ofSource text) []
    rwa [List.map_nil, List.append_nil] at h

/-- What stands on the error stream are the errors that the phases have returned, in order, and each request has its
errors from the reading of a source, from the binding of its names or from its run. The status is that of data errors
once a static error has been found, else that of a failed run once a run has failed, and success as long as nothing
stands on the error stream. A request that heeds static errors and finds one, or comes after one, comes to an end, has
written no lines and has left globals, heap and distances alone. It does not matter if distances are noted while the
walk over a program goes on. -/
theorem errors_tell_streams_status_and_gates {reports : List (List Diagnostic)} {s : Session} {r : Request}
    {errors : List Diagnostic} (h : Answered reports s)
    (he : errors = r.errors (reports.flatten.any Diagnostic.isStatic) s.interpreter s.nextId) :
    OfOnePhase errors ∧
    (∀ outcome s', s.perform r = some (outcome, s') →
      s'.textOn .err = String.join ((reports.flatten ++ errors).map Diagnostic.line) ∧
      outcome = .ok s'.status ∧
      (s'.status.code = 65 ↔ ∃ d ∈ reports.flatten ++ errors, d.isStatic = true) ∧
      (s'.status.code = 70 ↔ (∀ d ∈ reports.flatten ++ errors, d.isStatic = false) ∧
        ∃ d ∈ reports.flatten ++ errors, d.isStatic = false) ∧
      (s'.status.code = 0 ↔ reports.flatten ++ errors = []) ∧
      (s'.status.code = 0 ↔ s'.textOn .err = "")) ∧
    (r.heeds = true → (∃ d ∈ reports.flatten ++ errors, d.isStatic = true) →
      ∃ s', s.perform r = some (.ok s'.status, s') ∧ s'.textOn .out = s.textOn .out ∧
        s'.interpreter = s.interpreter) ∧
    ∀ c text, s.runOnTheWay true c false text = s.run c false text := by
  have hflag : reports.flatten.any Diagnostic.isStatic = s.hadError := h.accounted.hadError.symm
  obtain ⟨programs, hsettled⟩ := h.settled
  refine ⟨he ▸ Request.errors_ofOnePhase _ _ _ r, ?_, ?_, fun c text => hsettled.runOnTheWay_eq c false text⟩
  · intro outcome s' hr
    have hafter := h.accounted.perform hr
    rw [← he] at hafter
    obtain ⟨hdata, hsoftware, hsuccess⟩ := hafter.status_code
    exact ⟨hafter.stderr, perform_outcome hr, hdata, hsoftware, hsuccess,
      hsuccess.trans hafter.stderr_eq_empty_iff.symm⟩
  · rintro hr ⟨d, hd, hstatic⟩
    obtain ⟨log, horder⟩ := hsettled.order
    have hstatic : s.hadError = true ∨
        ∃ d ∈ r.errors s.hadError s.interpreter s.nextId, d.isStatic = true := by
      rcases List.mem_append.1 hd with hbefore | hnow
      · exact .inl (hflag ▸ List.any_eq_true.2 ⟨d, hbefore, hstatic⟩)
      · exact .inr ⟨d, hflag ▸ he ▸ hnow, hstatic⟩
    obtain ⟨s', hperform, hs'⟩ := Unmoved.perform horder.forgetTopLevel_eq hr hstatic
    exact ⟨s', hperform, hs'.stdout, hs'.interpreter⟩

/-- After a run that failed, a source with a breach of the rules on names turns the status from one failure to the
other, and its first statement prints nothing. -/
theorem static_error_after_failed_run :
    let failing : Request := .source ⟨.ticking, 20⟩ "print 1; print x;"
    let breach : Request := .source ⟨.ticking, 20⟩ "print 2; return;"
    ∃ s s', initial.perform failing = some (.ok .software, s) ∧ s.perform breach = some (.ok .dataError, s') ∧
      s'.textOn .out = s.textOn .out ∧ s'.textOn .err =
        "Undefined variable 'x'.\n[line 1]\n[line 1] Error at 'return': Can't return from top-level code.\n" := by
  intro failing breach
  have hfirst : ((initial.perform failing).map fun r => r.2.status) = some .software := by decide +kernel
  obtain ⟨⟨outcome, s⟩, hs, hstatus⟩ := Option.map_eq_some_iff.1 hfirst
  have hshown : ((initial.perform failing).map fun r =>
      let before := (failing.errors false .initial 0)
      let now := breach.errors (before.any Diagnostic.isStatic) r.2.interpreter r.2.nextId
      (String.join ((before ++ now).map Diagnostic.line), now.any Diagnostic.isStatic)) = some
        ("Undefined variable 'x'.\n[line 1]\n[line 1] Error at 'return': Can't return from top-level code.\n",
          true) := by
    decide +kernel
  rw [hs, Option.map_some, Option.some.injEq, Prod.mk.injEq] at hshown
  obtain ⟨hstderr, hstatic⟩ := hshown
  have hanswered : Answered [failing.errors false .initial 0] s := Answered.initial.perform hs
  obtain ⟨-, hall, hgate, -⟩ := errors_tell_streams_status_and_gates (r := breach) hanswered rfl
  rw [List.flatten_singleton] at hall hgate
  obtain ⟨d, hd, hd'⟩ := List.any_eq_true.1 hstatic
  obtain ⟨s', hs', hout, -⟩ := hgate rfl ⟨d, List.mem_append_right _ hd, hd'⟩
  obtain ⟨herr, -, hdata, -⟩ := hall _ _ hs'
  refine ⟨s, s', ?_, ?_, hout, herr.trans hstderr⟩
  · rw [hs, perform_outcome hs, hstatus]
  · have hcode := hdata.2 ⟨d, List.mem_append_right _ hd, hd'⟩
    rw [hs']
    cases hstatus' : s'.status <;> rw [hstatus'] at hcode <;> first | rfl | cases hcode

end Session

end LoxLang
