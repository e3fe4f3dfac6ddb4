import LoxLang.Proofs.Tree.Identities
import LoxLang.Proofs.Run.Relabel.Programs
import LoxLang.Proofs.Session.Reports

namespace LoxLang
open Interpreter

/-- What a line of a prompt asks for, if it is UTF-8. -/
def Session.Line.ofBytes? (bytes : List UInt8) : Option Session.Line :=
  (Text.Utf8.decode bytes).toOption.map Session.Line.ofChars

variable {ident : OccurrenceId → OccurrenceId} {k : Nat} {text : String} {n : OccurrenceId}

/-- Reading from another identity on gives the same tree, renumbered. -/
theorem Parsed.ofTokens_shift (text : String) (n : OccurrenceId) (k : Nat) :
    Parsed.ofTokens (Token.ofSource text) (n + k) =
      (Parsed.ofTokens (Token.ofSource text) n).relabel id k := by
  have hfinish : ∃ t ∈ Token.ofSource text, t.kind = .finish := by
    rw [Source.token_ofSource_eq]
    exact ⟨_, List.mem_append_right _ (List.mem_singleton_self _), rfl⟩
  have htokens : (Token.ofSource text).map (Token.relined id) = Token.ofSource text := List.map_id _
  have h := Parse.ofTokens_relabel id k hfinish n
  rwa [htokens] at h

/-- Errors of reading are told without identities. -/
theorem Source.readingErrors_shift (text : String) (n : OccurrenceId) (k : Nat) :
    readingErrors text (n + k) = readingErrors text n := by
  have hsame : SyntaxError.relined id = id := rfl
  unfold readingErrors
  rw [Parsed.ofTokens_shift]
  simp [Parsed.relabel, hsame]

/-- A program without errors has the identities that were given out for it. -/
theorem Program.statements_shift (herrors : (Parsed.ofTokens (Token.ofSource text) n).errors = [])
    (hident : ∀ i, n ≤ i → i < (Parsed.ofTokens (Token.ofSource text) n).nextId → ident i = i + k) :
    (Parsed.ofTokens (Token.ofSource text) (n + k)).statements =
      Stmt.relabelAll id ident (Parsed.ofTokens (Token.ofSource text) n).statements := by
  rw [Parsed.ofTokens_shift]
  change Stmt.relabelAll id (· + k) _ = _
  apply Stmt.relabelAll_congr
  intro o ho
  have hread : Program.Read n (Parsed.ofTokens (Token.ofSource text) n).nextId
      (Parsed.ofTokens (Token.ofSource text) n).statements := Program.ofSource_read false herrors
  obtain ⟨σ, hσ, rfl⟩ := List.mem_map.1 ((Stmt.sitesOfAll .top _).mem_iff.2 ho)
  exact (hident _ (hread.first_le hσ) (hread.lt_next hσ)).symm

namespace Session

variable {s t : Session} {before : Array Write} {c : Conditions}

/-- The second session differs from the first in identities, of which it has given out more, and in what it had written
before. -/
structure Renumbered (ident : OccurrenceId → OccurrenceId) (k : Nat) (before : Array Write) (s t : Session) :
    Prop where
  interpreter : s.interpreter.Renumbered ident t.interpreter
  nextId : t.nextId = s.nextId + k
  hadError : t.hadError = s.hadError
  hadRuntimeError : t.hadRuntimeError = s.hadRuntimeError
  written : t.written = before ++ s.written

namespace Renumbered

theorem writeLines (h : Renumbered ident k before s t) (lines : List String) :
    Renumbered ident k before (s.writeLines lines) (t.writeLines lines) := by
  rw [writeLines_eq, writeLines_eq]
  exact { h with written := by simp [h.written] }

theorem reportAll (h : Renumbered ident k before s t) (ds : List Diagnostic) :
    Renumbered ident k before (s.reportAll ds) (t.reportAll ds) := by
  rw [reportAll_eq, reportAll_eq]
  exact { h with
    hadError := congrArg (· || _) h.hadError
    hadRuntimeError := congrArg (· || _) h.hadRuntimeError
    written := by simp [h.written] }

theorem clearFlags (h : Renumbered ident k before s t) :
    Renumbered ident k before s.clearFlags t.clearFlags :=
  { h with hadError := rfl, hadRuntimeError := rfl }

theorem afterReading (h : Renumbered ident k before s t) (text : String) :
    Renumbered ident k before (s.afterReading text) (t.afterReading text) := by
  unfold Session.afterReading
  rw [h.nextId, Source.readingErrors_shift, Parsed.ofTokens_shift]
  exact { h.reportAll (Source.readingErrors text s.nextId) with nextId := rfl }

theorem barred_eq (h : Renumbered ident k before s t) (text : String) :
    (t.hadError || !(Source.readingErrors text t.nextId).isEmpty) =
      (s.hadError || !(Source.readingErrors text s.nextId).isEmpty) := by
  rw [h.hadError, h.nextId, Source.readingErrors_shift]

/-- The next identities after a text, which has no errors or bars what comes after it. -/
theorem withNextId (h : Renumbered ident k before s t) (text : String) :
    Renumbered ident k before { s with nextId := (Parsed.ofTokens (Token.ofSource text) s.nextId).nextId }
      { t with nextId := (Parsed.ofTokens (Token.ofSource text) t.nextId).nextId } := by
  rw [h.nextId, Parsed.ofTokens_shift]
  exact { h with nextId := rfl }

theorem printTrees (h : Renumbered ident k before s t) (text : String) :
    Renumbered ident k before (s.printTrees text) (t.printTrees text) := by
  unfold Session.printTrees
  by_cases hbarred : (s.hadError || !(Source.readingErrors text s.nextId).isEmpty) = true
  · rw [parse_barred hbarred, parse_barred (h.barred_eq text ▸ hbarred)]
    exact h.afterReading text
  · rw [parse_free hbarred, parse_free (h.barred_eq text ▸ hbarred)]
    have hlines : (Parsed.ofTokens (Token.ofSource text) t.nextId).statements.map Stmt.render =
        (Parsed.ofTokens (Token.ofSource text) s.nextId).statements.map Stmt.render := by
      rw [h.nextId, Parsed.ofTokens_shift]
      exact Stmt.map_render_relabelAll _
    dsimp only
    rw [hlines]
    exact (h.withNextId text).writeLines _

theorem withInterpreter (h : Renumbered ident k before s t) {i j : Interpreter} (hij : i.Renumbered ident j) :
    Renumbered ident k before { s with interpreter := i } { t with interpreter := j } :=
  { h with interpreter := hij }

theorem finished (h : Renumbered ident k before s t) {i j : Interpreter} (hij : i.Renumbered ident j)
    (error : Option RuntimeError) : Renumbered ident k before (s.finished error i) (t.finished error j) := by
  obtain ⟨hprinted, htaken⟩ := hij.takePrinted
  rw [finished_eq, finished_eq, hprinted]
  exact ((h.withInterpreter htaken).writeLines _).reportAll _

/-- The next program does the same under its other identities. -/
theorem runProgram (hident : Function.Injective ident) (h : Renumbered ident k before s t) (c : Conditions)
    (program : List Stmt) :
    Option.Rel (Renumbered ident k before) (s.runProgram c program)
      (t.runProgram c (Stmt.relabelAll id ident program)) := by
  cases hb : s.interpreter.bind program with
  | error es =>
    have hb' : t.interpreter.bind (Stmt.relabelAll id ident program) = .error es :=
      Interpreter.Renumbered.bind_error hb
    rw [runProgram_of_error hb, runProgram_of_error hb']
    exact .some ((h.withInterpreter (h.interpreter.forgetTopLevel hident)).reportAll _)
  | ok i =>
    obtain ⟨j, hb', hij⟩ := h.interpreter.bind_ok hident hb
    rw [runProgram_eq hb, runProgram_eq hb']
    rcases rel_cases (hij.interpret hident c program) with ⟨hi, hj⟩ | ⟨r, r', hi, hj, herror, hr⟩
    · rw [hi, hj]
      exact .none
    · rw [hi, hj, Option.map_some, Option.map_some, herror]
      exact .some (h.finished hr r.1)

/-- A source does the same, under its own identities in each session. -/
theorem run (hident : Function.Injective ident) (h : Renumbered ident k before s t)
    (hshift : ∀ i, s.nextId ≤ i → i < (Parsed.ofTokens (Token.ofSource text) s.nextId).nextId → ident i = i + k)
    (c : Conditions) (echo : Bool) :
    Option.Rel (Renumbered ident k before) (s.run c echo text) (t.run c echo text) := by
  rw [run_eq_parse, run_eq_parse]
  by_cases hbarred : (s.hadError || !(Source.readingErrors text s.nextId).isEmpty) = true
  · rw [parse_barred hbarred, parse_barred (h.barred_eq text ▸ hbarred)]
    exact .some (h.afterReading text)
  · rw [parse_free hbarred, parse_free (h.barred_eq text ▸ hbarred)]
    have herrors : (Parsed.ofTokens (Token.ofSource text) s.nextId).errors = [] := by
      simp only [Bool.or_eq_true, not_or] at hbarred
      have hnone : Source.readingErrors text s.nextId = [] := by simpa using hbarred.2
      exact List.map_eq_nil_iff.1 (List.append_eq_nil_iff.1 hnone).2
    have hprogram := Program.statements_shift herrors hshift
    rw [← h.nextId] at hprogram
    dsimp only
    rw [hprogram]
    cases echo with
    | false => exact (h.withNextId text).runProgram hident c _
    | true =>
      rw [if_pos rfl, if_pos rfl, Stmt.map_echoed_relabelAll]
      exact (h.withNextId text).runProgram hident c _

end Renumbered

theorem answerLine_trees {bytes : List UInt8} (hl : Line.ofBytes? bytes = some (.trees text)) (s : Session)
    (c : Conditions) : s.answerLine c bytes = .next (s.printTrees text).clearFlags := by
  unfold Line.ofBytes? at hl
  rw [answerLine_eq]
  cases hd : Text.Utf8.decode bytes with
  | error e => rw [hd] at hl; cases hl
  | ok cs =>
    rw [hd] at hl
    simp only [Except.toOption, Option.map_some, Option.some.injEq] at hl
    simp only [hl]

/-- A line that is a program runs with its values printed, and its errors are forgotten. -/
theorem answerLine_program {bytes : List UInt8} (hl : Line.ofBytes? bytes = some (.program text)) (s : Session)
    (c : Conditions) : s.answerLine c bytes = ((s.run c true text).elim .exhausted fun s => .next s.clearFlags) := by
  unfold Line.ofBytes? at hl
  rw [answerLine_eq]
  cases hd : Text.Utf8.decode bytes with
  | error e => rw [hd] at hl; cases hl
  | ok cs =>
    rw [hd] at hl
    simp only [Except.toOption, Option.map_some, Option.some.injEq] at hl
    simp only [hl]

end Session

end LoxLang
