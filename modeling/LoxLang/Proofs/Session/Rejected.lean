import LoxLang.Proofs.Session.Renumbered

namespace LoxLang

namespace Text.Lines

/-- The bytes without one of their lines and its newline. -/
def without : Nat → List UInt8 → List UInt8
  | _, [] => []
  | 0, b :: bs => if b = newline then bs else without 0 bs
  | i + 1, b :: bs => b :: without (if b = newline then i else i + 1) bs

theorem split_without_zero (reversed bytes : List UInt8) :
    split (without 0 bytes) = (splitFrom reversed bytes).eraseIdx 0 := by
  induction bytes generalizing reversed with
  | nil =>
    cases reversed <;> rfl
  | cons b bs ih =>
    by_cases hb : b = newline
    · simp [without, splitFrom, split, hb]
    · rw [without, if_neg hb, splitFrom, if_neg hb]
      exact ih (b :: reversed)

theorem splitFrom_without (i : Nat) (reversed bytes : List UInt8) :
    splitFrom reversed (without (i + 1) bytes) = (splitFrom reversed bytes).eraseIdx (i + 1) := by
  induction bytes generalizing i reversed with
  | nil =>
    cases reversed <;> rfl
  | cons b bs ih =>
    by_cases hb : b = newline
    · rw [without, if_pos hb, splitFrom, if_pos hb, splitFrom, if_pos hb, List.eraseIdx_cons_succ]
      congr 1
      cases i with
      | zero => exact split_without_zero [] bs
      | succ i => exact ih i []
    · rw [without, if_neg hb, splitFrom, if_neg hb, splitFrom, if_neg hb]
      exact ih i (b :: reversed)

/-- Its lines are the others. -/
theorem split_without (i : Nat) (bytes : List UInt8) : split (without i bytes) = (split bytes).eraseIdx i := by
  cases i with
  | zero => exact split_without_zero [] bytes
  | succ i => exact splitFrom_without i [] bytes

end Text.Lines

/-- To print a value binds no name. -/
theorem Binding.stmt_echoed (place : Place) (s : Stmt) (w : Walk) : stmt place s.echoed w = stmt place s w := by
  cases s <;> rfl

/-- Echoing concerns no names. -/
theorem Binding.ofProgram_echoed (program : List Stmt) : ofProgram (program.map Stmt.echoed) = ofProgram program := by
  have hwalk : ∀ place w, stmts place (program.map Stmt.echoed) w = stmts place program w := by
    intro place
    induction program with
    | nil => intro w; rfl
    | cons s ss ih =>
      intro w
      rw [List.map_cons, stmts, stmts, stmt_echoed, ih]
  rw [ofProgram_eq, ofProgram_eq]
  unfold walk
  rw [hwalk]

/-- Whatever identities are given out for it, a source that is not accepted has errors of reading or of binding. -/
theorem Source.rejected {text : String} (h : ¬Source.Accepted text) (n : OccurrenceId)
    (hread : readingErrors text n = []) :
    ∃ es, Binding.ofProgram ((Parsed.ofTokens (Token.ofSource text) n).statements.map Stmt.echoed) = .error es := by
  obtain ⟨hlexical, hgrammar⟩ := List.append_eq_nil_iff.1 hread
  have hshift := Parsed.ofTokens_shift text 0 n
  rw [Nat.zero_add] at hshift
  rw [hshift, Parsed.relabel] at hgrammar
  rw [hshift, Binding.ofProgram_echoed, Parsed.relabel, Binding.ofProgram_relabelAll]
  cases hb : Binding.ofProgram (Parsed.ofTokens (Token.ofSource text) 0).statements with
  | error es => exact ⟨_, rfl⟩
  | ok b =>
    refine absurd ⟨?_, ?_, b, hb⟩ h
    · exact List.map_eq_nil_iff.1 hlexical
    · exact List.map_eq_nil_iff.1 (List.map_eq_nil_iff.1 hgrammar)

namespace Session
open Interpreter

variable {s s' t : Session} {c : Conditions} {bytes : List UInt8} {lines : List (List UInt8)} {ws : List (List Write)}
  {ident : OccurrenceId → OccurrenceId} {k : Nat} {before : Array Write}

/-- A line that the prompt answers itself: it is UTF-8 and names no file. -/
def Plain (bytes : List UInt8) : Prop := ∃ line, Line.ofBytes? bytes = some line ∧ ∀ path, line ≠ .file path

instance (bytes : List UInt8) : Decidable (Plain bytes) :=
  match h : Line.ofBytes? bytes with
  | none => isFalse fun ⟨line, hl, _⟩ => by cases h.symm.trans hl
  | some (.file path) => isFalse fun ⟨line, hl, hfile⟩ => hfile path (Option.some.inj (hl.symm.trans h))
  | some (.trees text) => isTrue ⟨.trees text, h, fun _ => nofun⟩
  | some (.program text) => isTrue ⟨.program text, h, fun _ => nofun⟩

/-- A line that runs nothing: it asks for trees, or its source is not accepted. -/
inductive Rejected (bytes : List UInt8) : Prop
  | trees (text : String) (h : Line.ofBytes? bytes = some (.trees text))
  | program (text : String) (h : Line.ofBytes? bytes = some (.program text)) (hr : ¬Source.Accepted text)

/-- The session that has answered a line, with nothing written but the answer. -/
def answer? (s : Session) (c : Conditions) (bytes : List UInt8) : Option Session :=
  match ({ s with written := #[] } : Session).answerLine c bytes with
  | .next s => some s
  | _ => none

/-- What is written in answer to each of the lines. -/
def answers (c : Conditions) : Session → List (List UInt8) → Option (List (List Write))
  | _, [] => some []
  | s, bytes :: lines => do
    let s ← s.answer? c bytes
    let later ← answers c s lines
    pure (s.written.toList :: later)

/-- All that is written while lines are answered, with the cues. -/
def shown (ws : List (List Write)) : List Write :=
  ws.flatMap (fun w => ⟨.out, cue⟩ :: w) ++ [⟨.out, cue⟩]

/-- The first identity not given out after a line. -/
def nextIdAfter (s : Session) (bytes : List UInt8) : OccurrenceId :=
  match Line.ofBytes? bytes with
  | some (.trees text) | some (.program text) => (Parsed.ofTokens (Token.ofSource text) s.nextId).nextId
  | _ => s.nextId

/-- A source has its identities given out whether or not it runs. -/
theorem run_nextId {text : String} {echo : Bool} (h : s.run c echo text = some s') :
    s'.nextId = (Parsed.ofTokens (Token.ofSource text) s.nextId).nextId := by
  rw [run_eq_parse] at h
  have hparse := parse_nextId s text
  cases hp : s.parse text with
  | mk program s₁ =>
    rw [hp] at h hparse
    cases program with
    | none => cases h; exact hparse
    | some program => exact (runProgram_nextId h).trans hparse

theorem nextId_le_after (s : Session) (bytes : List UInt8) : s.nextId ≤ s.nextIdAfter bytes := by
  unfold nextIdAfter
  split
  · exact nextId_le _ _
  · exact nextId_le _ _
  · exact Nat.le_refl _

/-- A line that the prompt answers itself asks for trees or is a program. -/
theorem Plain.cases (h : Plain bytes) :
    (∃ text, Line.ofBytes? bytes = some (.trees text)) ∨ ∃ text, Line.ofBytes? bytes = some (.program text) := by
  obtain ⟨line, hl, hfile⟩ := h
  cases line with
  | file path => exact absurd rfl (hfile path)
  | trees text => exact .inl ⟨text, hl⟩
  | program text => exact .inr ⟨text, hl⟩

/-- Sessions with other identities answer a line in the same way. -/
theorem Renumbered.answerLine (hident : Function.Injective ident) (h : Renumbered ident k before s t)
    (hplain : Plain bytes) (hshift : ∀ i, s.nextId ≤ i → i < s.nextIdAfter bytes → ident i = i + k)
    (c : Conditions) :
    (s.answerLine c bytes = .exhausted ∧ t.answerLine c bytes = .exhausted) ∨
      ∃ s' t', s.answerLine c bytes = .next s' ∧ t.answerLine c bytes = .next t' ∧ Renumbered ident k before s' t' ∧
        s'.nextId = s.nextIdAfter bytes := by
  rcases hplain.cases with ⟨text, hl⟩ | ⟨text, hl⟩
  · refine .inr ⟨_, _, answerLine_trees hl s c, answerLine_trees hl t c, (h.printTrees text).clearFlags, ?_⟩
    simp only [nextIdAfter, hl]
    exact printTrees_nextId_eq s text
  · simp only [nextIdAfter, hl] at hshift ⊢
    rw [answerLine_program hl, answerLine_program hl]
    rcases rel_cases (h.run hident hshift c true) with ⟨hs, ht⟩ | ⟨s', t', hs, ht, hst⟩
    · rw [hs, ht]
      exact .inl ⟨rfl, rfl⟩
    · rw [hs, ht]
      have hnext : s'.clearFlags.nextId = s'.nextId := rfl
      exact .inr ⟨_, _, rfl, rfl, hst.clearFlags, hnext.trans (run_nextId hs)⟩

/-- A line that is answered in a session is answered in one that has written nothing. -/
theorem answer?_of_next {s₁ : Session} (h : ({ s with written := #[] } : Session).answerLine c bytes = .next s₁) :
    s.answer? c bytes = some s₁ := by
  unfold answer?
  rw [h]

theorem answer?_of_exhausted (h : ({ s with written := #[] } : Session).answerLine c bytes = .exhausted) :
    s.answer? c bytes = none := by
  unfold answer?
  rw [h]

/-- The same for what is written in answer alone. -/
theorem Renumbered.answer? (hident : Function.Injective ident) (h : Renumbered ident k before s t)
    (hplain : Plain bytes) (hshift : ∀ i, s.nextId ≤ i → i < s.nextIdAfter bytes → ident i = i + k)
    (c : Conditions) :
    (s.answer? c bytes = none ∧ t.answer? c bytes = none) ∨
      ∃ s' t', s.answer? c bytes = some s' ∧ t.answer? c bytes = some t' ∧ Renumbered ident k #[] s' t' ∧
        s'.nextId = s.nextIdAfter bytes := by
  have hfresh : Renumbered ident k #[] { s with written := #[] } { t with written := #[] } :=
    { h with written := rfl }
  rcases hfresh.answerLine hident hplain hshift c with ⟨hs, ht⟩ | ⟨s', t', hs, ht, hst, hnext⟩
  · exact .inl ⟨answer?_of_exhausted hs, answer?_of_exhausted ht⟩
  · exact .inr ⟨s', t', answer?_of_next hs, answer?_of_next ht, hst, hnext⟩

/-- A session between two lines. Its flags are down, and no identity occurs in its interpreter that has not been given
out: nothing in it changes when others are renumbered. -/
structure AtPrompt (s : Session) : Prop where
  hadError : s.hadError = false
  hadRuntimeError : s.hadRuntimeError = false
  settled : ∃ programs, Settled programs s.nextId s
  own : ∀ ident : OccurrenceId → OccurrenceId, Function.Injective ident → (∀ i < s.nextId, ident i = i) →
    s.interpreter.Renumbered ident s.interpreter

namespace AtPrompt

theorem initial : AtPrompt .initial :=
  ⟨rfl, rfl, ⟨[], .initial⟩, fun ident _ _ => .initial ident⟩

theorem forgetTopLevel_eq (h : AtPrompt s) : s.interpreter.forgetTopLevel = s.interpreter := by
  obtain ⟨programs, hsettled⟩ := h.settled
  obtain ⟨log, horder⟩ := hsettled.order
  exact horder.forgetTopLevel_eq

/-- A session is renumbered as itself when its own identities are kept. -/
theorem renumbered (h : AtPrompt s) (hident : Function.Injective ident) (hown : ∀ i < s.nextId, ident i = i) :
    Renumbered ident 0 #[] s s :=
  ⟨h.own ident hident hown, rfl, rfl, rfl, by simp⟩

/-- After each line the flags are down. -/
theorem cleared (hplain : Plain bytes) (ha : s.answer? c bytes = some s') :
    s'.hadError = false ∧ s'.hadRuntimeError = false := by
  unfold answer? at ha
  rcases hplain.cases with ⟨text, hl⟩ | ⟨text, hl⟩
  · rw [answerLine_trees hl] at ha
    cases ha
    exact ⟨rfl, rfl⟩
  · rw [answerLine_program hl] at ha
    cases hr : ({ s with written := #[] } : Session).run c true text with
    | none => rw [hr] at ha; cases ha
    | some s₁ =>
      rw [hr] at ha
      cases ha
      exact ⟨rfl, rfl⟩

theorem nextId_of_answer (h : AtPrompt s) (hplain : Plain bytes) (ha : s.answer? c bytes = some s') :
    s'.nextId = s.nextIdAfter bytes := by
  have hself : Renumbered id 0 #[] s s := h.renumbered Function.injective_id fun _ _ => rfl
  rcases hself.answer? Function.injective_id hplain (fun _ _ _ => rfl) c with ⟨hs, -⟩ | ⟨s₁, t₁, hs, -, -, hnext⟩
  · rw [ha] at hs
    cases hs
  · rw [ha] at hs
    cases hs
    exact hnext

theorem answer (h : AtPrompt s) (hplain : Plain bytes) (ha : s.answer? c bytes = some s') : AtPrompt s' := by
  obtain ⟨hadError, hadRuntimeError⟩ := cleared hplain ha
  have hnext := h.nextId_of_answer hplain ha
  refine ⟨hadError, hadRuntimeError, ?_, fun ident hident hown => ?_⟩
  · obtain ⟨programs, hsettled⟩ := h.settled
    have hfresh : Settled programs s.nextId { s with written := #[] } := hsettled.on_eq rfl
    have hfeed : ({ s with written := #[] } : Session).feed (.line c bytes) = some s' := by
      unfold answer? at ha
      split at ha
      · next hl =>
        cases ha
        simp only [feed, hl]
      · cases ha
    exact ⟨_, hfresh.feed hfeed⟩
  · -- the run has been the same under the other identities, and it has given out those before `s'.nextId`
    rw [hnext] at hown
    have hle := nextId_le_after s bytes
    have hself := h.renumbered hident fun i hi => hown i (Nat.lt_of_lt_of_le hi hle)
    rcases hself.answer? hident hplain (fun i _ hi => hown i hi) c with ⟨hs, -⟩ | ⟨s₁, t₁, hs, ht, hst, -⟩
    · rw [ha] at hs
      cases hs
    · rw [ha] at hs ht
      cases hs
      cases ht
      exact hst.interpreter

/-- A line that runs nothing uses up identities, and that is all. -/
theorem rejected (h : AtPrompt s) (hr : Rejected bytes) (c : Conditions) :
    ∃ s', s.answer? c bytes = some s' ∧ s'.interpreter = s.interpreter := by
  cases hr with
  | trees text hl =>
    refine ⟨_, answer?_of_next (answerLine_trees hl _ c), ?_⟩
    have hon := printTrees_on { s with written := #[] } s.interpreter text
    have hi := congrArg Session.interpreter hon
    exact hi
  | program text hl hr =>
    have hrun : ∃ s', ({ s with written := #[] } : Session).run c true text = some s' ∧
        s'.interpreter = s.interpreter := by
      rw [run_eq_parse]
      by_cases hread : Source.readingErrors text s.nextId = []
      · obtain ⟨es, hes⟩ := Source.rejected hr s.nextId hread
        rw [parse_free (by simp [h.hadError, hread])]
        obtain ⟨s', hs', hunmoved⟩ := Unmoved.runProgram (c := c)
          (s := { s with written := #[], nextId := (Parsed.ofTokens (Token.ofSource text) s.nextId).nextId })
          h.forgetTopLevel_eq (bind_eq_error hes _)
        exact ⟨s', hs', hunmoved.interpreter⟩
      · rw [parse_barred (by simp [hread])]
        exact ⟨_, rfl, (Unmoved.afterReading _ text).interpreter⟩
    obtain ⟨s', hs', hi⟩ := hrun
    refine ⟨s'.clearFlags, answer?_of_next ?_, hi⟩
    rw [answerLine_program hl, hs']
    rfl

end AtPrompt

/-- Line after line, the other session answers the same under its own identities. -/
theorem answers_renumbered (hident : Function.Injective ident) (h : Renumbered ident k before s t)
    (hplain : ∀ bytes ∈ lines, Plain bytes) (hshift : ∀ i, s.nextId ≤ i → ident i = i + k) (c : Conditions) :
    answers c t lines = answers c s lines := by
  induction lines generalizing s t before with
  | nil => rfl
  | cons bytes lines ih =>
    rw [List.forall_mem_cons] at hplain
    unfold answers
    rcases h.answer? hident hplain.1 (fun i hi _ => hshift i hi) c with ⟨hs, ht⟩ | ⟨s', t', hs, ht, hst, hnext⟩
    · rw [hs, ht]
    · have hle := nextId_le_after s bytes
      have hlater := ih hst hplain.2 fun i hi => hshift i (Nat.le_trans hle (hnext ▸ hi))
      have hwritten : t'.written = s'.written := by rw [hst.written, Array.empty_append]
      rw [hs, ht]
      simp only [Option.bind_eq_bind, Option.bind_some, hlater, hwritten]

/-- Identities from `n` on, renumbered by `k`. -/
def raise (n k i : Nat) : Nat := if i < n then i else i + k

theorem raise_injective (n k : Nat) : Function.Injective (raise n k) := by
  intro i j h
  unfold raise at h
  split at h <;> split at h <;> omega

/-- Without a line that runs nothing the others are answered in the same way. -/
theorem answers_eraseIdx (h : AtPrompt s) (hplain : ∀ bytes ∈ lines, Plain bytes) {i : Nat}
    (hi : lines[i]? = some bytes) (hr : Rejected bytes) (hw : answers c s lines = some ws) :
    answers c s (lines.eraseIdx i) = some (ws.eraseIdx i) := by
  induction lines generalizing s ws i with
  | nil => cases hi
  | cons first lines ih =>
    rw [List.forall_mem_cons] at hplain
    unfold answers at hw
    simp only [Option.bind_eq_bind, Option.bind_eq_some_iff, Option.pure_def, Option.some.injEq] at hw
    obtain ⟨s', ha, later, hlater, rfl⟩ := hw
    cases i with
    | zero =>
      obtain rfl : first = bytes := by simpa using hi
      obtain ⟨s₁, hs₁, hsame⟩ := h.rejected hr c
      obtain rfl : s' = s₁ := Option.some.inj (ha.symm.trans hs₁)
      have hafter := h.answer hplain.1 ha
      have hle := nextId_le_after s first
      rw [← h.nextId_of_answer hplain.1 ha] at hle
      have hrenumbered : Renumbered (raise s.nextId (s'.nextId - s.nextId)) (s'.nextId - s.nextId) #[]
          { s with written := s'.written } s' := by
        refine ⟨?_, ?_, ?_, ?_, by simp⟩
        · rw [hsame]
          exact h.own _ (raise_injective _ _) fun i hi => if_pos hi
        · exact (Nat.add_sub_cancel' hle).symm
        · rw [hafter.hadError, h.hadError]
        · rw [hafter.hadRuntimeError, h.hadRuntimeError]
      have hsame := answers_renumbered (raise_injective _ _) hrenumbered hplain.2
        (fun i hi => if_neg (Nat.not_lt_of_le hi)) c
      rw [List.eraseIdx_cons_zero, List.eraseIdx_cons_zero, ← hlater, hsame]
      cases lines <;> rfl
    | succ i =>
      have hrest := ih (h.answer hplain.1 ha) hplain.2 (by simpa using hi) hlater
      rw [List.eraseIdx_cons_succ, List.eraseIdx_cons_succ]
      unfold answers
      simp [ha, hrest]

/-- A prompt writes its answers, each after a cue, and comes to its end. -/
theorem runLines_eq (h : Renumbered id 0 before s t) (hplain : ∀ bytes ∈ lines, Plain bytes) (c : Conditions)
    (readFile : String → Except Files.Error (List UInt8)) :
    (answers c s lines = none ∧ runLines c readFile t lines = none) ∨
      ∃ ws t', answers c s lines = some ws ∧ runLines c readFile t lines = some (.ok .success, t') ∧
        t'.written.toList = t.written.toList ++ shown ws := by
  induction lines generalizing s t before with
  | nil =>
    refine .inr ⟨[], t.write .out cue, rfl, rfl, ?_⟩
    simp [shown, write]
  | cons bytes lines ih =>
    rw [List.forall_mem_cons] at hplain
    have hcue : Renumbered id 0 (t.write .out cue).written { s with written := #[] } (t.write .out cue) :=
      { h with written := by simp }
    unfold answers runLines
    rcases hcue.answerLine Function.injective_id hplain.1 (fun _ _ _ => rfl) c with
      ⟨hs, ht⟩ | ⟨s', t', hs, ht, hst, -⟩
    · rw [answer?_of_exhausted hs, ht]
      exact .inl ⟨rfl, rfl⟩
    · rw [answer?_of_next hs, ht]
      rcases ih hst hplain.2 with ⟨hws, hrun⟩ | ⟨ws, t₁, hws, hrun, hwritten⟩
      · simp [hws, hrun]
      · refine .inr ⟨s'.written.toList :: ws, t₁, by simp [hws], hrun, ?_⟩
        rw [hwritten, hst.written]
        simp [shown, write]

/-- A prompt from its start. -/
theorem runPrompt_eq {input : List UInt8} (hplain : ∀ bytes ∈ Text.Lines.split input, Plain bytes) (c : Conditions)
    (readFile : String → Except Files.Error (List UInt8)) :
    (answers c .initial (Text.Lines.split input) = none ∧ initial.runPrompt c readFile input = none) ∨
      ∃ ws s, answers c .initial (Text.Lines.split input) = some ws ∧
        initial.runPrompt c readFile input = some (.ok .success, s) ∧
        s.written.toList = Write.ofRun banner none ++ shown ws := by
  have hbanner : (initial.writeLines banner).written = (Write.ofRun banner none).toArray := by
    rw [writeLines_eq]
    exact Array.empty_append
  have hstart : Renumbered id 0 (initial.writeLines banner).written .initial (initial.writeLines banner) := by
    rw [writeLines_eq]
    exact ⟨.initial id, rfl, rfl, rfl, rfl⟩
  rcases runLines_eq hstart hplain c readFile with hnone | ⟨ws, s, hws, hrun, hwritten⟩
  · exact .inl hnone
  · rw [hbanner] at hwritten
    exact .inr ⟨ws, s, hws, hrun, hwritten⟩

theorem length_answers (hw : answers c s lines = some ws) : ws.length = lines.length := by
  induction lines generalizing s ws with
  | nil =>
    cases hw
    rfl
  | cons bytes lines ih =>
    unfold answers at hw
    simp only [Option.bind_eq_bind, Option.bind_eq_some_iff, Option.pure_def, Option.some.injEq] at hw
    obtain ⟨s', -, later, hlater, rfl⟩ := hw
    rw [List.length_cons, List.length_cons, ih hlater]

/-- In a prompt of lines of UTF-8 that names no file and comes to an end, a line that asks for trees or has a static
error can be taken out of the input. What is written is then what was written before, without the answer to that line:
all other lines are answered in the same way, and both prompts end with success. -/
theorem rejected_line_leaves_no_trace {c : Conditions} {readFile : String → Except Files.Error (List UInt8)}
    {input bytes : List UInt8} {outcome : Except Failure ExitStatus} {s : Session} {i : Nat}
    (hplain : ∀ bytes ∈ Text.Lines.split input, Plain bytes)
    (hrun : initial.runPrompt c readFile input = some (outcome, s))
    (hi : (Text.Lines.split input)[i]? = some bytes) (hr : Rejected bytes) :
    outcome = .ok .success ∧ ∃ ws, answers c .initial (Text.Lines.split input) = some ws ∧
      ws.length = (Text.Lines.split input).length ∧ s.written.toList = Write.ofRun banner none ++ shown ws ∧
      answers c .initial ((Text.Lines.split input).eraseIdx i) = some (ws.eraseIdx i) ∧
      ∃ s', initial.runPrompt c readFile (Text.Lines.without i input) = some (.ok .success, s') ∧
        s'.written.toList = Write.ofRun banner none ++ shown (ws.eraseIdx i) := by
  rcases runPrompt_eq hplain c readFile with ⟨-, hnone⟩ | ⟨ws, s₁, hws, hrun₁, hwritten⟩
  · rw [hrun] at hnone
    cases hnone
  · obtain ⟨rfl, rfl⟩ := Prod.mk.inj (Option.some.inj (hrun.symm.trans hrun₁))
    have herased := answers_eraseIdx .initial hplain hi hr hws
    refine ⟨rfl, ws, hws, length_answers hws, hwritten, herased, ?_⟩
    have hplain' : ∀ bytes ∈ Text.Lines.split (Text.Lines.without i input), Plain bytes := by
      rw [Text.Lines.split_without]
      exact fun bytes hb => hplain bytes (List.mem_of_mem_eraseIdx hb)
    rcases runPrompt_eq hplain' c readFile with ⟨hnone, -⟩ | ⟨vs, s', hvs, hrun', hwritten'⟩
    · rw [Text.Lines.split_without, herased] at hnone
      cases hnone
    · rw [Text.Lines.split_without, herased] at hvs
      cases hvs
      exact ⟨s', hrun', hwritten'⟩

/-- A line of UTF-8, as bytes. Its characters are all of one byte. -/
def bytesOf (text : String) : List UInt8 := text.toList.map fun ch => ch.toNat.toUInt8

/-- The function of a line that ends in a breach of the rules is not there for the next line, and the variable of the
line before it still is. -/
theorem breach_between_two_lines :
    let c : Conditions := ⟨.ticking, 20⟩
    let input := bytesOf "var x = 1;\nfun f() \x7b return x; \x7d return;\nx + 1; f();"
    let breach : Write := ⟨.err, "[line 1] Error at 'return': Can't return from top-level code.\n"⟩
    let last : List Write := [⟨.out, "2\n"⟩, ⟨.err, "Undefined variable 'f'.\n[line 1]\n"⟩]
    ∃ s s', initial.runPrompt c (fun _ => .error .notFound) input = some (.ok .success, s) ∧
      s.written.toList = Write.ofRun banner none ++ shown [[], [breach], last] ∧
      initial.runPrompt c (fun _ => .error .notFound) (bytesOf "var x = 1;\nx + 1; f();") = some (.ok .success, s') ∧
      s'.written.toList = Write.ofRun banner none ++ shown [[], last] := by
  intro c input breach last
  have hplain : ∀ bytes ∈ Text.Lines.split input, Plain bytes := by decide +kernel
  have hline : (Text.Lines.split input)[1]? = some (bytesOf "fun f() \x7b return x; \x7d return;") := by decide +kernel
  have hprogram : Line.ofBytes? (bytesOf "fun f() \x7b return x; \x7d return;") =
      some (.program "fun f() \x7b return x; \x7d return;") := by decide +kernel
  have hbreach : (Binding.ofProgram
      (Parsed.ofTokens (Token.ofSource "fun f() \x7b return x; \x7d return;") 0).statements).toOption.isNone := by
    decide +kernel
  have hrejected : ¬Source.Accepted "fun f() \x7b return x; \x7d return;" := by
    intro haccepted
    obtain ⟨b, hb⟩ := haccepted.binding
    rw [hb] at hbreach
    cases hbreach
  have hends : (initial.runPrompt c (fun _ => .error .notFound) input).isSome := by decide +kernel
  have hanswers : answers c .initial (Text.Lines.split input) = some [[], [breach], last] := by decide +kernel
  have hkept : Text.Lines.without 1 input = bytesOf "var x = 1;\nx + 1; f();" := by decide +kernel
  obtain ⟨⟨outcome, s⟩, hrun⟩ := Option.isSome_iff_exists.1 hends
  obtain ⟨rfl, ws, hws, -, hwritten, -, s', hrun', hwritten'⟩ :=
    rejected_line_leaves_no_trace hplain hrun hline (.program _ hprogram hrejected)
  obtain rfl := Option.some.inj (hws.symm.trans hanswers)
  rw [hkept] at hrun'
  exact ⟨s, s', hrun, hwritten, hrun', hwritten'⟩

end Session

end LoxLang
