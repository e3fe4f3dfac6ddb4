import LoxLang.Proofs.Token.Seam
import LoxLang.Proofs.Grammar.Seam
import LoxLang.Proofs.Run.Access
import LoxLang.Proofs.Run.Seam
import LoxLang.Proofs.Session.Accepted

namespace LoxLang

/-- One of two sources that are run one after the other. -/
inductive Part where
  | first
  | second
deriving DecidableEq

namespace Part

/-- The line of a token of the part when the second source is moved down. -/
def lineBelow (down : Nat) : Part → Nat → Nat
  | first, line => line
  | second, line => line + down

/-- A number for a line of the part. Lines of the two parts have different numbers. -/
def mark : Part → Nat → Nat
  | first, line => 2 * line
  | second, line => 2 * line + 1

def ofMark (k : Nat) : Part := if k % 2 = 0 then first else second

/-- The line that a number stands for when the second source is moved down. -/
def settle (down k : Nat) : Nat := (ofMark k).lineBelow down (k / 2)

theorem ofMark_mark (p : Part) (line : Nat) : ofMark (p.mark line) = p := by
  unfold ofMark
  cases p with
  | first => simp [mark]
  | second => rw [if_neg (by simp only [mark]; omega)]

theorem mark_div (p : Part) (line : Nat) : p.mark line / 2 = line := by
  cases p <;> simp only [mark] <;> omega

/-- Taking a mark off leads to the line where the part stands. -/
theorem settle_mark (p : Part) (down line : Nat) : settle down (p.mark line) = p.lineBelow down line := by
  unfold settle
  rw [ofMark_mark, mark_div]

/-- The source of the part. -/
def of (a b : String) : Part → String
  | first => a
  | second => b

end Part

/-- How the second of two sources ends: the lines it prints and the error that stops it, if one does, with the source
that the token of the error is from. -/
structure Ending where
  printed : List String
  error : Option (Part × RuntimeError)
deriving DecidableEq

namespace Ending

/-- The error as it is reported when the second source is moved down. -/
def errorBelow (down : Nat) (e : Ending) : Option RuntimeError :=
  e.error.map fun (part, error) => { error with line := part.lineBelow down error.line }

def status (e : Ending) : ExitStatus := if e.error.isSome then .software else .success

/-- What is written when the second source is moved down. -/
def writes (down : Nat) (e : Ending) : List Write := Write.ofRun e.printed (e.errorBelow down)

/-- The error is on the line of a token of its source. -/
def Placed (a b : String) (e : Ending) : Prop :=
  ∀ part error, e.error = some (part, error) → ∃ t ∈ Token.ofSource (part.of a b), t.line = error.line

/-- The ending of a run with marked lines. -/
def ofOutcome : Eval.Outcome Unit → Option Ending
  | .done _ m => some ⟨m.printed.toList, none⟩
  | .failed e m => some ⟨m.printed.toList, some (Part.ofMark e.line, { e with line := e.line / 2 })⟩
  | .exhausted => none

end Ending

/-- A source read with its lines marked. -/
def Part.parsed (p : Part) (source : String) (n : OccurrenceId) : Parsed :=
  Parsed.ofTokens ((Token.ofSource source).map (Token.relined p.mark)) n

namespace Part

variable {source : String} {n : OccurrenceId} (p : Part)

theorem exists_finish (source : String) : ∃ t ∈ Token.ofSource source, t.kind = .finish := by
  rw [Source.token_ofSource_eq]
  exact ⟨_, List.mem_append_right _ (List.mem_singleton_self _), rfl⟩

/-- The marked program is the program by itself, relabelled. -/
theorem parsed_eq (source : String) (n : OccurrenceId) :
    p.parsed source n = (Parsed.ofTokens (Token.ofSource source) 0).relabel p.mark n := by
  have h := Parse.ofTokens_relabel p.mark n (exists_finish source) 0
  rw [Nat.zero_add] at h
  exact h

/-- From the marked program come all others that are moved down. -/
theorem parsed_settled (source : String) (n : OccurrenceId) (down : Nat) :
    Parsed.ofTokens ((Token.ofSource source).map (Token.relined (p.lineBelow down))) n =
      (p.parsed source n).relabel (settle down) 0 := by
  have hfinish : ∃ t ∈ (Token.ofSource source).map (Token.relined p.mark), t.kind = .finish := by
    obtain ⟨t, ht, hk⟩ := exists_finish source
    exact ⟨t.relined p.mark, List.mem_map_of_mem ht, hk⟩
  have htokens : ((Token.ofSource source).map (Token.relined p.mark)).map (Token.relined (settle down)) =
      (Token.ofSource source).map (Token.relined (p.lineBelow down)) := by
    rw [List.map_map]
    congr 1
    funext t
    simp [Token.relined, settle_mark]
  rw [← htokens]
  exact Parse.ofTokens_relabel (settle down) 0 hfinish n

/-- To mark lines makes no errors. -/
theorem parsed_errors (h : Source.Accepted source) (n : OccurrenceId) : (p.parsed source n).errors = [] := by
  rw [parsed_eq]
  simp [Parsed.relabel, h.grammar]

theorem parsed_binding (h : Source.Accepted source) (n : OccurrenceId) :
    ∃ b, Binding.ofProgram (p.parsed source n).statements = .ok b := by
  rw [parsed_eq]
  exact Binding.ofProgram_relabel h.binding

theorem parsed_read (h : Source.Accepted source) (n : OccurrenceId) :
    Program.Read n (p.parsed source n).nextId (p.parsed source n).statements := by
  refine Program.read_ofTokens (fun t ht => ?_) (p.parsed_errors h n)
  obtain ⟨u, hu, rfl⟩ := List.mem_map.1 ht
  have hspelled := Token.ofSource_spelled hu
  exact hspelled

/-- The program is as it is when lines are changed that none of its tokens is on. -/
theorem parsed_fixed {f : Nat → Nat} (hf : ∀ t ∈ Token.ofSource source, f (p.mark t.line) = p.mark t.line)
    (n : OccurrenceId) : Stmt.relabelAll f id (p.parsed source n).statements = (p.parsed source n).statements := by
  have hfinish : ∃ t ∈ (Token.ofSource source).map (Token.relined p.mark), t.kind = .finish := by
    obtain ⟨t, ht, hk⟩ := exists_finish source
    exact ⟨t.relined p.mark, List.mem_map_of_mem ht, hk⟩
  have htokens : ((Token.ofSource source).map (Token.relined p.mark)).map (Token.relined f) =
      (Token.ofSource source).map (Token.relined p.mark) := by
    rw [List.map_map]
    refine List.map_congr_left fun t ht => ?_
    simp [Token.relined, hf t ht]
  have h := Parse.ofTokens_relabel f 0 hfinish n
  rw [htokens] at h
  exact (congrArg Parsed.statements h).symm

end Part

namespace Interpreter

theorem between_setting (b b' : Binding) (m m' : Machine) (c : Conditions) :
    ((between b m).addBinding b').setting c = ((between b m').addBinding b').setting c := by
  simp [between, addBinding, distances_foldl_note, setting, forgetTopLevel, takePrinted]

end Interpreter

open Interpreter

/-- Two accepted sources, read with their lines marked, and what is noted for each of them and for both. -/
structure Pieces (a b : String) (b₁ b₂ whole : Binding) : Prop where
  first : Source.Accepted a
  second : Source.Accepted b
  binds_first : Binding.ofProgram (Part.first.parsed a 0).statements = .ok b₁
  binds_second : Binding.ofProgram (Part.second.parsed b (Part.first.parsed a 0).nextId).statements = .ok b₂
  binds_whole : Binding.ofProgram ((Part.first.parsed a 0).statements ++
    (Part.second.parsed b (Part.first.parsed a 0).nextId).statements) = .ok whole

/-- Two accepted sources are accepted one after the other, and as one text. -/
theorem Pieces.exists {a b : String} (ha : Source.Accepted a) (hb : Source.Accepted b) :
    ∃ b₁ b₂ whole, Pieces a b b₁ b₂ whole := by
  obtain ⟨b₁, h₁⟩ := Part.first.parsed_binding ha 0
  obtain ⟨b₂, h₂⟩ := Part.second.parsed_binding hb (Part.first.parsed a 0).nextId
  obtain ⟨whole, hw⟩ : ∃ whole, Binding.ofProgram ((Part.first.parsed a 0).statements ++
      (Part.second.parsed b (Part.first.parsed a 0).nextId).statements) = .ok whole := by
    rw [Part.parsed_eq .second]
    exact Binding.ofProgram_seam (Part.first.parsed_read ha 0).formed ⟨b₁, h₁⟩ hb.binding
  exact ⟨b₁, b₂, whole, ha, hb, h₁, h₂, hw⟩

namespace Pieces

variable {a b : String} {b₁ b₂ whole : Binding}

/-- What comes of the first source. -/
def firstRun (a : String) (b₁ : Binding) (c : Conditions) : Eval.Outcome Unit :=
  runAll ((initial.addBinding b₁).setting c) c.fuel (Part.first.parsed a 0).statements .initial

/-- What comes of the second source after the first has left the machine told. -/
def secondRun (a b : String) (b₁ b₂ : Binding) (c : Conditions) (m : Machine) : Eval.Outcome Unit :=
  runAll (((between b₁ m).addBinding b₂).setting c) c.fuel
    (Part.second.parsed b (Part.first.parsed a 0).nextId).statements { m with printed := #[] }

/-- How the second source ends after the first. Both are read with their lines marked, so that the line of an error
tells which source its token is from. -/
def ending (a b : String) (c : Conditions) : Option Ending :=
  let first := (Part.first.parsed a 0).statements
  let second := (Part.second.parsed b (Part.first.parsed a 0).nextId).statements
  let i := ((initial.bound first).ran c first).takePrinted.2.bound second
  Ending.ofOutcome (runAll (i.setting c) c.fuel second i.machine)

theorem bound_eq {i : Interpreter} {program : List Stmt} {b : Binding} (h : Binding.ofProgram program = .ok b) :
    i.bound program = i.addBinding b := by
  unfold bound
  rw [bind_eq h]
  rfl

/-- How the second source ends is told by its run alone, after the machine that the first has left. -/
theorem ending_eq (h : Pieces a b b₁ b₂ whole) {c : Conditions} {m : Machine} (hfirst : firstRun a b₁ c = .done () m) :
    ending a b c = Ending.ofOutcome (secondRun a b b₁ b₂ c m) := by
  have hran :
      ((initial.bound (Part.first.parsed a 0).statements).ran c (Part.first.parsed a 0).statements).takePrinted.2 =
      between b₁ m := by
    unfold ran
    rw [bound_eq h.binds_first, interpret_eq, addBinding_machine]
    change ((((initial.addBinding b₁).ended (firstRun a b₁ c)).map Prod.snd).getD _).takePrinted.2 = _
    rw [hfirst]
    rfl
  simp only [ending, hran, bound_eq h.binds_second, addBinding_machine]
  rfl

theorem read_first (h : Pieces a b b₁ b₂ whole) :
    Program.Read 0 (Part.first.parsed a 0).nextId (Part.first.parsed a 0).statements :=
  Part.first.parsed_read h.first 0

theorem read_second (h : Pieces a b b₁ b₂ whole) :
    Program.Read (Part.first.parsed a 0).nextId (Part.second.parsed b (Part.first.parsed a 0).nextId).nextId
      (Part.second.parsed b (Part.first.parsed a 0).nextId).statements :=
  Part.second.parsed_read h.second _

/-- The whole program runs as the first does, and then the second. -/
theorem whole_run (h : Pieces a b b₁ b₂ whole) (c : Conditions) (down : Nat) :
    runAll ((initial.addBinding whole).setting c) c.fuel
        (Stmt.relabelAll (Part.settle down) id ((Part.first.parsed a 0).statements ++
          (Part.second.parsed b (Part.first.parsed a 0).nextId).statements)) .initial =
      match firstRun a b₁ c with
      | .done _ m => (secondRun a b b₁ b₂ c m).moved (Part.settle down) id m.printed id
      | .failed e m => .failed (e.relined (Part.settle down)) (m.moved (Part.settle down) id #[])
      | .exhausted => .exhausted := by
  have hfirst : runAll ((initial.addBinding whole).setting c) c.fuel
      (Stmt.relabelAll (Part.settle down) id (Part.first.parsed a 0).statements) .initial =
        (firstRun a b₁ c).moved (Part.settle down) id #[] id := by
    have hmoves := runAll_moves (Part.settle down) #[] (.same ((initial.addBinding whole).setting c)) c.fuel
      (Part.first.parsed a 0).statements .initial
    rw [Machine.initial_moved, first_part h.read_first h.read_second h.binds_first h.binds_whole c] at hmoves
    exact hmoves
  rw [Stmt.relabelAll_append, runAll_append]
  cases hr : firstRun a b₁ c with
  | exhausted =>
    rw [hr] at hfirst
    exact Eval.bind_exhausted hfirst
  | failed e m =>
    rw [hr] at hfirst
    exact Eval.bind_failed hfirst
  | done u m =>
    rw [hr] at hfirst
    have hmoves := runAll_moves (Part.settle down) m.printed (.same ((initial.addBinding whole).setting c)) c.fuel
      (Part.second.parsed b (Part.first.parsed a 0).nextId).statements { m with printed := #[] }
    rw [Machine.moved_untaken,
      second_part h.read_first h.read_second h.binds_first h.binds_second h.binds_whole c hr] at hmoves
    exact (Eval.bind_done hfirst).trans hmoves

/-- The first source is read as its program is with the marks taken off, wherever the second one is. -/
theorem reads_first (h : Pieces a b b₁ b₂ whole) (down : Nat) :
    Parsed.ofTokens (Token.ofSource a) 0 =
      ⟨Stmt.relabelAll (Part.settle down) id (Part.first.parsed a 0).statements, [],
        (Part.first.parsed a 0).nextId⟩ := by
  have hp := Part.first.parsed_settled a 0 down
  have htokens : (Token.ofSource a).map (Token.relined (Part.first.lineBelow down)) = Token.ofSource a :=
    List.map_id _
  rw [htokens] at hp
  rw [hp]
  simp only [Parsed.relabel, Part.parsed_errors .first h.first, List.map_nil]
  rfl

/-- So is the second, below as many empty lines as there are lines of the first. -/
theorem reads_second (h : Pieces a b b₁ b₂ whole) (down : Nat) :
    Parsed.ofTokens (Token.ofSource (Source.blankLines down ++ b)) (Part.first.parsed a 0).nextId =
      ⟨Stmt.relabelAll (Part.settle down) id (Part.second.parsed b (Part.first.parsed a 0).nextId).statements, [],
        (Part.second.parsed b (Part.first.parsed a 0).nextId).nextId⟩ := by
  have hp := Part.second.parsed_settled b (Part.first.parsed a 0).nextId down
  rw [Source.token_ofSource_blankLines]
  refine hp.trans ?_
  simp only [Parsed.relabel, Part.parsed_errors .second h.second, List.map_nil]
  rfl

/-- As one text the two sources are read one after the other, the second with its lines moved down. -/
theorem reads_whole (h : Pieces a b b₁ b₂ whole) :
    Parsed.ofTokens (Token.ofSource (a ++ "\n" ++ b)) 0 =
      ⟨Stmt.relabelAll (Part.settle (Source.newlines a + 1)) id ((Part.first.parsed a 0).statements ++
        (Part.second.parsed b (Part.first.parsed a 0).nextId).statements), [],
        (Part.second.parsed b (Part.first.parsed a 0).nextId).nextId⟩ := by
  have hfirst := h.reads_first (Source.newlines a + 1)
  have hsecond := h.reads_second (Source.newlines a + 1)
  have htokens : (Token.ofSource (a ++ "\n" ++ b)).takeWhile (·.kind != .finish) =
      (Token.ofSource a).takeWhile (·.kind != .finish) ++
        (Token.ofSource (Source.blankLines (Source.newlines a + 1) ++ b)).takeWhile (·.kind != .finish) := by
    rw [Source.token_ofSource_blankLines, List.takeWhile_map]
    exact Source.tokens_seam h.first.lexical b
  have hseam := Parse.ofTokens_seam (n := 0) htokens (by rw [hfirst]) (by rw [hfirst, hsecond])
  rw [hseam, hfirst, hsecond, Stmt.relabelAll_append]

/-- What the first source leaves, its marks taken off. -/
theorem session_first (h : Pieces a b b₁ b₂ whole) (c : Conditions) (down : Nat) :
    Session.initial.run c false a =
      ((initial.addBinding b₁).ended ((firstRun a b₁ c).moved (Part.settle down) id #[] id)).map fun r =>
        { Session.initial with nextId := (Part.first.parsed a 0).nextId }.finished r.1 r.2 := by
  have hb := bind_eq (Binding.ofProgram_relined (Part.settle down) h.binds_first) initial
  have hmoves := runAll_moves (Part.settle down) #[] (.same ((initial.addBinding b₁).setting c)) c.fuel
    (Part.first.parsed a 0).statements .initial
  rw [Machine.initial_moved] at hmoves
  rw [Session.run_eq (s := .initial) rfl h.first.lexical (h.reads_first down) hb, interpret_eq, addBinding_machine]
  exact congrArg (fun o => ((initial.addBinding b₁).ended o).map _) hmoves

/-- The second source in a session that has run the first. -/
theorem session_second (h : Pieces a b b₁ b₂ whole) (c : Conditions) {s : Session} {m : Machine} (down : Nat)
    (hi : s.interpreter = between b₁ (m.moved (Part.settle down) id #[]))
    (hn : s.nextId = (Part.first.parsed a 0).nextId) (he : s.hadError = false) :
    s.run c false (Source.blankLines down ++ b) =
      ((s.interpreter.addBinding b₂).ended ((secondRun a b b₁ b₂ c m).moved (Part.settle down) id #[] id)).map fun r =>
        { s with nextId := (Part.second.parsed b (Part.first.parsed a 0).nextId).nextId }.finished r.1 r.2 := by
  have hb := bind_eq (Binding.ofProgram_relined (Part.settle down) h.binds_second) s.interpreter
  have hmoves := runAll_moves (Part.settle down) #[] (.same (((between b₁ m).addBinding b₂).setting c)) c.fuel
    (Part.second.parsed b (Part.first.parsed a 0).nextId).statements { m with printed := #[] }
  have hmachine : s.interpreter.machine = Machine.moved (Part.settle down) id #[] { m with printed := #[] } := by
    rw [hi, Machine.moved_taken]
    rfl
  have hsetting : (s.interpreter.addBinding b₂).setting c = ((between b₁ m).addBinding b₂).setting c := by
    rw [hi]
    exact between_setting b₁ b₂ _ m c
  have hp := (congrArg (Parsed.ofTokens (Token.ofSource (Source.blankLines down ++ b))) hn).trans (h.reads_second down)
  rw [Session.run_eq he (Source.lexicalErrors_blankLines down h.second.lexical) hp hb, interpret_eq,
    addBinding_machine, hmachine, hsetting]
  exact congrArg (fun o => ((s.interpreter.addBinding b₂).ended o).map _) hmoves

/-- Both sources as one text in a session of their own. -/
theorem session_whole (h : Pieces a b b₁ b₂ whole) (c : Conditions) :
    Session.initial.run c false (a ++ "\n" ++ b) =
      ((initial.addBinding whole).ended (match firstRun a b₁ c with
        | .done _ m => (secondRun a b b₁ b₂ c m).moved (Part.settle (Source.newlines a + 1)) id m.printed id
        | .failed e m => .failed (e.relined (Part.settle (Source.newlines a + 1)))
          (m.moved (Part.settle (Source.newlines a + 1)) id #[])
        | .exhausted => .exhausted)).map fun r =>
        { Session.initial with
          nextId := (Part.second.parsed b (Part.first.parsed a 0).nextId).nextId }.finished r.1 r.2 := by
  have hb := bind_eq (Binding.ofProgram_relined (Part.settle (Source.newlines a + 1)) h.binds_whole) initial
  have hl := Source.lexicalErrors_seam h.first.lexical h.second.lexical
  rw [Session.run_eq (s := .initial) rfl hl h.reads_whole hb, interpret_eq, addBinding_machine]
  exact congrArg (fun o => ((initial.addBinding whole).ended o).map _) (h.whole_run c _)

end Pieces

end LoxLang
