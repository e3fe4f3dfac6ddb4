import LoxLang.Proofs.Grammar.Progress
import LoxLang.Proofs.Grammar.Completeness.Statements
import LoxLang.Proofs.Grammar.Derivations

namespace LoxLang.Parse
open Grammar

/-- Reading a program starts here. -/
def start (tokens : List Token) (n : OccurrenceId) : State :=
  ⟨(Parsed.splitAtFinish tokens).1, (Parsed.splitAtFinish tokens).2, #[], n⟩

/-- Only the tokens before the first end are read. -/
theorem splitAtFinish_fst (tokens : List Token) :
    (Parsed.splitAtFinish tokens).1 = tokens.takeWhile (·.kind != .finish) := by
  unfold Parsed.splitAtFinish
  split
  · rfl
  · next h =>
    have := List.takeWhile_append_dropWhile (p := (·.kind != .finish)) (l := tokens)
    rw [h, List.append_nil] at this
    exact this.symm

/-- There is fuel enough, so the first outcome is the only one. -/
theorem ofTokens_done (tokens : List Token) (n : OccurrenceId) :
    ∃ statements s, declarations (Parsed.fuelFor (start tokens n).tokens) false (start tokens n) =
        .done statements s ∧ Parsed.ofTokens tokens n = ⟨statements, s.errors.toList, s.nextId⟩ := by
  have hfuel : 32 * (start tokens n).tokens.length + 21 ≤ Parsed.fuelFor (start tokens n).tokens := by
    unfold Parsed.fuelFor
    omega
  obtain ⟨statements, s, h⟩ := declarations_done false (start tokens n) hfuel
  refine ⟨statements, s, h, ?_⟩
  unfold start at h
  unfold Parsed.ofTokens
  simp only [h]

/-- What is read without an error is a tree of the tokens. -/
theorem ofTokens_sound {tokens : List Token} {n : OccurrenceId} (h : (Parsed.ofTokens tokens n).errors = []) :
    ReadsDeclarations (tokens.takeWhile (·.kind != .finish)) (Parsed.ofTokens tokens n).statements := by
  obtain ⟨statements, s, hd, ho⟩ := ofTokens_done tokens n
  rw [ho] at h ⊢
  obtain ⟨-, w, hw, hr, hend⟩ := (stmtAccepts _).declarations false _ _ _ hd (by simpa using h)
  rw [hend rfl, List.append_nil] at hw
  rw [← splitAtFinish_fst, show (Parsed.splitAtFinish tokens).1 = w from hw]
  exact hr

/-- Tokens that have a tree are read as that tree, with identities of its own. -/
theorem ofTokens_complete {tokens : List Token} {ss : List Stmt} (n : OccurrenceId)
    (h : ReadsDeclarations (tokens.takeWhile (·.kind != .finish)) ss) :
    (Parsed.ofTokens tokens n).errors = [] ∧
      Stmt.erasedAll (Parsed.ofTokens tokens n).statements = Stmt.erasedAll ss ∧
      GivenOut n (Parsed.ofTokens tokens n).nextId (Stmt.idsAll (Parsed.ofTokens tokens n).statements) := by
  obtain ⟨statements, s, hd, ho⟩ := ofTokens_done tokens n
  obtain ⟨ss', n', he, hg, hc⟩ := readsThrough_nil_iff.1 (declarations_back h false) n
  have hstart : (start tokens n).on (tokens.takeWhile (·.kind != .finish) ++ []) n = start tokens n := by
    rw [List.append_nil, ← splitAtFinish_fst]
    rfl
  have hgives := hc (start tokens n) (Parsed.fuelFor (start tokens n).tokens) [] rfl
  rw [hstart] at hgives
  dsimp only at hgives
  rw [hd] at hgives
  rcases hgives with hgives | hgives
  · cases hgives
  · cases hgives
    rw [ho]
    exact ⟨rfl, he, hg⟩

/-- Reading accepts exactly what the grammar derives and answers with the tree that the grammar dictates. -/
theorem ofTokens_follows_grammar (tokens : List Token) (n : OccurrenceId) :
    let w := tokens.takeWhile (·.kind != .finish)
    let parsed := Parsed.ofTokens tokens n
    (parsed.errors = [] ↔ Derives (.rule .program) w) ∧
      (parsed.errors = [] → ReadsDeclarations w parsed.statements ∧
        ∀ ss, ReadsDeclarations w ss → Stmt.erasedAll ss = Stmt.erasedAll parsed.statements) := by
  refine ⟨⟨fun h => ?_, fun h => ?_⟩, fun h => ⟨ofTokens_sound h, fun ss hss => ?_⟩⟩
  · exact derives_program_iff.2 ⟨_, ofTokens_sound h⟩
  · obtain ⟨ss, hss⟩ := derives_program_iff.1 h
    exact (ofTokens_complete n hss).1
  · exact (ofTokens_complete n hss).2.1.symm

end LoxLang.Parse
