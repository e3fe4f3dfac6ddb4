import LoxLang.Proofs.Session.Pieces

namespace LoxLang
open Interpreter

theorem Write.ofRun_append (first second : List String) (error : Option RuntimeError) :
    Write.ofRun (first ++ second) error = Write.ofRun first none ++ Write.ofRun second error := by
  simp [Write.ofRun]

namespace Pieces

variable {a b : String} {b₁ b₂ : Binding} {m m' : Machine} {e : RuntimeError}

/-- A run does not make up lines: if its error were on no line of a token, then it would still be where it is after that
line alone had been moved. -/
theorem error_placed {c : Conditions} (hfirst : firstRun a b₁ c = .done () m)
    (hsecond : secondRun a b b₁ b₂ c m = .failed e m') :
    ∃ t ∈ Token.ofSource ((Part.ofMark e.line).of a b), t.line = e.line / 2 := by
  by_contra hnone
  let f : Nat → Nat := fun k => if k = e.line then k + 1 else k
  have hf : ∀ p : Part, ∀ t ∈ Token.ofSource (p.of a b), f (p.mark t.line) = p.mark t.line := by
    intro p t ht
    have hne : p.mark t.line ≠ e.line := by
      intro he
      apply hnone
      rw [← he, Part.ofMark_mark, Part.mark_div]
      exact ⟨t, ht, rfl⟩
    simp [f, hne]
  have hfixed : Stmt.relabelAll f id (Part.first.parsed a 0).statements = (Part.first.parsed a 0).statements :=
    Part.first.parsed_fixed (hf .first) 0
  have hfixed' : Stmt.relabelAll f id (Part.second.parsed b (Part.first.parsed a 0).nextId).statements =
      (Part.second.parsed b (Part.first.parsed a 0).nextId).statements :=
    Part.second.parsed_fixed (hf .second) _
  have hm : m.moved f id #[] = m := by
    have hmoves := runAll_moves f #[] (.same ((initial.addBinding b₁).setting c)) c.fuel
      (Part.first.parsed a 0).statements .initial
    rw [Machine.initial_moved, hfixed] at hmoves
    have hdone : Eval.Outcome.done () m = (Eval.Outcome.done () m).moved f id #[] id := by
      rw [← hfirst]
      exact hmoves
    exact (Eval.Outcome.done.inj hdone).2.symm
  have hmoves := runAll_moves f #[] (.same (((between b₁ m).addBinding b₂).setting c)) c.fuel
    (Part.second.parsed b (Part.first.parsed a 0).nextId).statements { m with printed := #[] }
  rw [Machine.moved_taken, hm, hfixed'] at hmoves
  have hfailed : (Eval.Outcome.failed e m' : Eval.Outcome Unit) = (Eval.Outcome.failed e m').moved f id #[] id := by
    rw [← hsecond]
    exact hmoves
  have he : e = e.relined f := (Eval.Outcome.failed.inj hfailed).1
  have hline : e.line = f e.line := congrArg RuntimeError.line he
  simp [f] at hline

/-- So the error of an ending is on the line of a token of its source. -/
theorem ending_placed {c : Conditions} (hfirst : firstRun a b₁ c = .done () m) {ending : Ending}
    (he : Ending.ofOutcome (secondRun a b b₁ b₂ c m) = some ending) : ending.Placed a b := by
  cases hsecond : secondRun a b b₁ b₂ c m with
  | done u m' =>
    rw [hsecond] at he
    cases he
    rintro part error ⟨⟩
  | failed e m' =>
    rw [hsecond] at he
    cases he
    rintro part error ⟨⟩
    exact error_placed hfirst hsecond
  | exhausted =>
    rw [hsecond] at he
    cases he

end Pieces

/-- A session has written what it had before, then the lines told, then what belongs to the ending. -/
structure Session.Ends (s s' : Session) (before : List String) (down : Nat) (e : Ending) : Prop where
  written : s'.written = s.written ++ (Write.ofRun before none ++ e.writes down).toArray
  hadError : s'.hadError = s.hadError
  hadRuntimeError : s'.hadRuntimeError = (s.hadRuntimeError || e.error.isSome)

/-- Marks taken off, a run ends a session as its ending says. -/
theorem Session.ends_of_outcome (s : Session) (i : Interpreter) (before : Array String) (down : Nat)
    {o : Eval.Outcome Unit} {e : Ending} (he : Ending.ofOutcome o = some e) :
    ∃ s', ((i.ended (o.moved (Part.settle down) id before id)).map fun r => s.finished r.1 r.2) = some s' ∧
      s.Ends s' before.toList down e := by
  cases o with
  | done u m =>
    cases he
    refine ⟨_, rfl, ?_, rfl, rfl⟩
    simp only [finished, forgetTopLevel, takePrinted, Machine.moved, Array.toList_append, Write.ofRun_append]
    rfl
  | failed error m =>
    cases he
    refine ⟨_, rfl, ?_, rfl, rfl⟩
    simp only [finished, forgetTopLevel, takePrinted, Machine.moved, Array.toList_append, Write.ofRun_append]
    rfl
  | exhausted => cases he

/-- A run without an ending has run out of fuel. -/
theorem Ending.ofOutcome_eq_none {o : Eval.Outcome Unit} (h : ofOutcome o = none) : o = .exhausted := by
  cases o with
  | done u m => cases h
  | failed e m => cases h
  | exhausted => rfl

/-- The session after the first source, which has left the machine told. -/
def Pieces.afterFirst (a : String) (b₁ : Binding) (m : Machine) : Session :=
  { Session.initial with nextId := (Part.first.parsed a 0).nextId }.finished none
    ({ initial.addBinding b₁ with machine := m.moved (Part.settle 0) id #[] }.forgetTopLevel)

namespace Session

/-- The status after a run that was not preceded by errors. -/
theorem Ends.status {s s' : Session} {before : List String} {down : Nat} {e : Ending} (h : s.Ends s' before down e)
    (hs : s.hadError = false) (hr : s.hadRuntimeError = false) : s'.status = e.status := by
  unfold Session.status Ending.status
  rw [h.hadError, h.hadRuntimeError, hs, hr]
  simp

/-- The status comes from the session after the run. -/
theorem runSource_eq {s s' : Session} {c : Conditions} {source : String} (h : s.run c false source = some s') :
    s.runSource c source = some (s'.status, s') := by
  rw [runSource_eq_run, h]
  rfl

theorem runSource_eq_none {s : Session} {c : Conditions} {source : String} (h : s.run c false source = none) :
    s.runSource c source = none := by
  rw [runSource_eq_run, h]
  rfl

/-- Two sources without static errors do as one text what they do one after the other. If the first ends well, both
sessions write the ending of the second: what it prints, and the error that stops it on the line of its token, which in
the one text is further down by the lines of the first source if the token is the second source's. If the first ends in
an error, so does the text, and no more of it is run. A run that comes to no end has none in the other session either.
-/
theorem pieces_run_as_one_text {a b : String} (ha : Source.Accepted a) (hb : Source.Accepted b) (c : Conditions) :
    match Session.initial.runSource c a with
    | none => Session.initial.runSource c (a ++ "\n" ++ b) = none
    | some (.success, s) =>
      match Pieces.ending a b c with
      | none => s.runSource c b = none ∧ Session.initial.runSource c (a ++ "\n" ++ b) = none
      | some e =>
        e.Placed a b ∧
          (∃ s', s.runSource c b = some (e.status, s') ∧ s'.written = s.written ++ (e.writes 0).toArray) ∧
          ∃ s', Session.initial.runSource c (a ++ "\n" ++ b) = some (e.status, s') ∧
            s'.written = s.written ++ (e.writes (Source.newlines a + 1)).toArray
    | some (status, s) =>
      status = .software ∧ ∃ s', Session.initial.runSource c (a ++ "\n" ++ b) = some (.software, s') ∧
        s'.written = s.written ∧ s'.interpreter.machine = s.interpreter.machine := by
  obtain ⟨b₁, b₂, whole, h⟩ := Pieces.exists ha hb
  have hwhole := h.session_whole c
  cases hfirst : Pieces.firstRun a b₁ c with
  | exhausted =>
    have hs := h.session_first c 0
    rw [hfirst] at hs hwhole
    rw [runSource_eq_none hs]
    exact runSource_eq_none hwhole
  | failed e m =>
    have hs := h.session_first c (Source.newlines a + 1)
    rw [hfirst] at hs hwhole
    rw [runSource_eq hs, runSource_eq hwhole]
    exact ⟨rfl, _, rfl, rfl, rfl⟩
  | done u m =>
    have hs := h.session_first c 0
    rw [hfirst] at hs hwhole
    dsimp only at hwhole
    have hs : Session.initial.run c false a = some (Pieces.afterFirst a b₁ m) := hs
    have hsecond := h.session_second (m := m) (s := Pieces.afterFirst a b₁ m) c 0 rfl rfl rfl
    have hblank : Source.blankLines 0 ++ b = b := by simp [Source.blankLines]
    rw [hblank] at hsecond
    rw [runSource_eq hs, h.ending_eq hfirst]
    change match Ending.ofOutcome (Pieces.secondRun a b b₁ b₂ c m) with
      | none => _
      | some e => _
    cases he : Ending.ofOutcome (Pieces.secondRun a b b₁ b₂ c m) with
    | none =>
      rw [Ending.ofOutcome_eq_none he] at hsecond hwhole
      exact ⟨runSource_eq_none hsecond, runSource_eq_none hwhole⟩
    | some e =>
      obtain ⟨s', hs', hends⟩ := ends_of_outcome
        { Pieces.afterFirst a b₁ m with nextId := (Part.second.parsed b (Part.first.parsed a 0).nextId).nextId }
        ((Pieces.afterFirst a b₁ m).interpreter.addBinding b₂) #[] 0 he
      obtain ⟨s'', hs'', hends'⟩ := ends_of_outcome
        { Session.initial with nextId := (Part.second.parsed b (Part.first.parsed a 0).nextId).nextId }
        (Interpreter.initial.addBinding whole) m.printed (Source.newlines a + 1) he
      have hprinted : (Pieces.afterFirst a b₁ m).written = (Write.ofRun m.printed.toList none).toArray := by
        simp [Pieces.afterFirst, finished, Session.initial, forgetTopLevel, takePrinted, Machine.moved]
      refine ⟨Pieces.ending_placed hfirst he, ⟨s', ?_, ?_⟩, ⟨s'', ?_, ?_⟩⟩
      · rw [runSource_eq (hsecond.trans hs'), hends.status rfl rfl]
      · rw [hends.written]
        rfl
      · rw [runSource_eq (hwhole.trans hs''), hends'.status rfl rfl]
      · rw [hends'.written, hprinted]
        simp [Session.initial]

/-- A source that calls what a function of another source gives it. -/
def callsResult : String := "print 2;\nf()();"

/-- The error of the second source is told on its second line, and on the fourth line of the whole text. -/
theorem error_further_down_in_one_text :
    let a := "fun f() \x7b return nil; \x7d\nprint 1;"
    let c : Conditions := ⟨.ticking, 40⟩
    Source.Accepted a ∧ Source.Accepted callsResult ∧
      Pieces.ending a callsResult c = some ⟨["2"], some (.second, ⟨.notCallable, 2⟩)⟩ ∧
      ∃ s s' s'', Session.initial.runSource c a = some (.success, s) ∧
        s.runSource c callsResult = some (.software, s') ∧
        s'.written = s.written ++
          #[⟨.out, "2\n"⟩, ⟨.err, "Can only call functions and classes.\n[line 2]\n"⟩] ∧
        Session.initial.runSource c (a ++ "\n" ++ callsResult) = some (.software, s'') ∧
        s''.written = s.written ++
          #[⟨.out, "2\n"⟩, ⟨.err, "Can only call functions and classes.\n[line 4]\n"⟩] := by
  intro a c
  have hbinds : ∀ source, (Binding.ofProgram (Parsed.ofTokens (Token.ofSource source) 0).statements).toOption.isSome →
      ∃ b, Binding.ofProgram (Parsed.ofTokens (Token.ofSource source) 0).statements = .ok b := by
    intro source hsome
    cases hb : Binding.ofProgram (Parsed.ofTokens (Token.ofSource source) 0).statements with
    | ok b => exact ⟨b, rfl⟩
    | error es => rw [hb] at hsome; cases hsome
  have ha : Source.Accepted a := ⟨by decide +kernel, by decide +kernel, hbinds a (by decide +kernel)⟩
  have hb : Source.Accepted callsResult :=
    ⟨by decide +kernel, by decide +kernel, hbinds callsResult (by decide +kernel)⟩
  have h := pieces_run_as_one_text ha hb c
  have hfirst : (Session.initial.runSource c a).map Prod.fst = some .success := by decide +kernel
  have hending : Pieces.ending a callsResult c = some ⟨["2"], some (.second, ⟨.notCallable, 2⟩)⟩ := by decide +kernel
  have hlines : Source.newlines a + 1 = 2 := by decide +kernel
  obtain ⟨⟨status, s⟩, hs, rfl⟩ := Option.map_eq_some_iff.1 hfirst
  rw [hs, hending, hlines] at h
  obtain ⟨-, ⟨s', hs', hw⟩, s'', hs'', hw'⟩ := h
  exact ⟨ha, hb, hending, s, s', s'', hs, hs', hw, hs'', hw'⟩

end Session

end LoxLang
