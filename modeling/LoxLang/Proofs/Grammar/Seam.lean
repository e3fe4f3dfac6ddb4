import Mathlib.Data.List.TakeWhile
import LoxLang.Proofs.Grammar.Programs
import LoxLang.Proofs.Grammar.Relabel

namespace LoxLang

/-- The same program on other lines and with other identities. -/
def Parsed.relabel (line : Nat → Nat) (k : Nat) (p : Parsed) : Parsed where
  statements := Stmt.relabelAll line (· + k) p.statements
  errors := p.errors.map (SyntaxError.relined line)
  nextId := p.nextId + k

namespace Parse
open Grammar

/-- Trees of two token lists one after the other. -/
theorem readsDeclarations_append {v w : List Token} {as bs : List Stmt} (hbs : ReadsDeclarations w bs)
    (has : ReadsDeclarations v as) : ReadsDeclarations (v ++ w) (as ++ bs) := by
  induction as generalizing v with
  | nil =>
    cases has
    exact hbs
  | cons s as ih =>
    cases has with
    | cons h hs =>
      rw [List.append_assoc]
      exact .cons h (ih hs)

/-- Declarations are read one after another, the later ones as if they stood alone. -/
theorem declarations_seam {v w : List Token} {as bs : List Stmt} (hbs : ReadsDeclarations w bs) (n : OccurrenceId)
    (has : ReadsDeclarations v as) : ∃ as' m bs' n', ∀ st : State,
      (∀ fuel, (declarations fuel false (st.on v n)).Gives as' (st.on [] m)) ∧
      (∀ fuel, (declarations fuel false (st.on w m)).Gives bs' (st.on [] n')) ∧
      ∀ fuel, (declarations fuel false (st.on (v ++ w) n)).Gives (as' ++ bs') (st.on [] n') := by
  have hend : EndsDeclarations false [] := rfl
  induction as generalizing v n with
  | nil =>
    cases has
    obtain ⟨bs', n', -, -, hc⟩ := readsThrough_nil_iff.1 (declarations_back hbs false) n
    have hread : ∀ st fuel, (declarations fuel false (State.on st w n)).Gives bs' (st.on [] n') := by
      intro st fuel
      simpa using hc st fuel [] rfl
    exact ⟨[], n, bs', n', fun st => ⟨declarations_end hend st n, hread st, hread st⟩⟩
  | cons s as ih =>
    cases has with
    | @cons _ v' _ _ _ h hs =>
      have hhead := (declaration_heads h).mono fun _ hk => beginsDeclaration_continues hk
      have hv : NoElse v' := by simpa using noElse_declarations hs hend
      have hw : NoElse (v' ++ w) := by
        simpa using noElse_declarations (readsDeclarations_append hbs hs) hend
      obtain ⟨s', m', -, -, hc⟩ := readsThrough_nil_iff.1 (declaration_back h) n
      obtain ⟨as', m, bs', n', hseam⟩ := ih m' hs
      refine ⟨s' :: as', m, bs', n', fun st => ?_⟩
      obtain ⟨has, hbs', hall⟩ := hseam st
      refine ⟨?_, hbs', ?_⟩
      · exact declarations_cons hhead (fun fuel => hc st fuel _ fun _ => hv) has
      · rw [List.append_assoc]
        exact declarations_cons hhead (fun fuel => hc st fuel _ fun _ => hw) hall

/-- Reading with errors on the way comes to what is given. -/
theorem ofTokens_of_reporting {tokens : List Token} {n n' : OccurrenceId} {ss : List Stmt} {es : List SyntaxError}
    (h : ∀ st : State, ∀ fuel,
      (declarations fuel false (st.on (tokens.takeWhile (·.kind != .finish)) n)).Gives ss
        ((st.reporting es).on [] n')) : Parsed.ofTokens tokens n = ⟨ss, es, n'⟩ := by
  obtain ⟨statements, s, hd, ho⟩ := ofTokens_done tokens n
  have hgives := h (start tokens n) (Parsed.fuelFor (start tokens n).tokens)
  have hstart : (start tokens n).on (tokens.takeWhile (·.kind != .finish)) n = start tokens n := by
    rw [← splitAtFinish_fst]
    rfl
  rw [hstart, hd] at hgives
  rcases hgives with hgives | hgives
  · cases hgives
  · cases hgives
    rw [ho]
    simp [start, State.reporting, State.on]

/-- Reading without errors on the way comes to what is given. -/
theorem ofTokens_of_gives {tokens : List Token} {n n' : OccurrenceId} {ss : List Stmt}
    (h : ∀ st : State, ∀ fuel,
      (declarations fuel false (st.on (tokens.takeWhile (·.kind != .finish)) n)).Gives ss (st.on [] n')) :
    Parsed.ofTokens tokens n = ⟨ss, [], n'⟩ := by
  apply ofTokens_of_reporting
  simpa using h

/-- Two lists of tokens, each read without an error, in one go. -/
theorem ofTokens_seam {ts us vs : List Token} {n : OccurrenceId}
    (hv : vs.takeWhile (·.kind != .finish) = ts.takeWhile (·.kind != .finish) ++ us.takeWhile (·.kind != .finish))
    (ht : (Parsed.ofTokens ts n).errors = [])
    (hu : (Parsed.ofTokens us (Parsed.ofTokens ts n).nextId).errors = []) :
    Parsed.ofTokens vs n =
      ⟨(Parsed.ofTokens ts n).statements ++ (Parsed.ofTokens us (Parsed.ofTokens ts n).nextId).statements, [],
        (Parsed.ofTokens us (Parsed.ofTokens ts n).nextId).nextId⟩ := by
  obtain ⟨as, m, bs, n', h⟩ := declarations_seam (ofTokens_sound hu) n (ofTokens_sound ht)
  have hts : Parsed.ofTokens ts n = ⟨as, [], m⟩ := ofTokens_of_gives fun st => (h st).1
  have hus : Parsed.ofTokens us m = ⟨bs, [], n'⟩ := ofTokens_of_gives fun st => (h st).2.1
  have hvs : Parsed.ofTokens vs n = ⟨as ++ bs, [], n'⟩ := by
    refine ofTokens_of_gives fun st => ?_
    rw [hv]
    exact (h st).2.2
  rw [hvs, hts, hus]

/-- The first end is found on whatever line it is. -/
theorem splitAtFinish_relined (line : Nat → Nat) {tokens : List Token} (h : ∃ t ∈ tokens, t.kind = .finish) :
    Parsed.splitAtFinish (tokens.map (Token.relined line)) =
      ((Parsed.splitAtFinish tokens).1.map (Token.relined line), (Parsed.splitAtFinish tokens).2.relined line) := by
  have hkind : (fun t : Token => t.kind != .finish) ∘ Token.relined line = fun t => t.kind != .finish := rfl
  obtain ⟨t, ht, hfinish⟩ := h
  unfold Parsed.splitAtFinish
  rw [List.dropWhile_map, List.takeWhile_map, hkind]
  cases hd : tokens.dropWhile (·.kind != .finish) with
  | nil =>
    have hkept := List.dropWhile_eq_nil_iff.1 hd t ht
    simp [hfinish] at hkept
  | cons u us => rfl

theorem start_relabel (line : Nat → Nat) (k : Nat) {tokens : List Token} (h : ∃ t ∈ tokens, t.kind = .finish)
    (n : OccurrenceId) : start (tokens.map (Token.relined line)) (n + k) = (start tokens n).relabel line k := by
  unfold start
  rw [splitAtFinish_relined line h]
  simp [State.relabel]

/-- Relabelled tokens are read as relabelled statements. -/
theorem ofTokens_relabel (line : Nat → Nat) (k : Nat) {tokens : List Token} (h : ∃ t ∈ tokens, t.kind = .finish)
    (n : OccurrenceId) :
    Parsed.ofTokens (tokens.map (Token.relined line)) (n + k) = (Parsed.ofTokens tokens n).relabel line k := by
  obtain ⟨ss, s, hd, ho⟩ := ofTokens_done tokens n
  obtain ⟨ss', s', hd', ho'⟩ := ofTokens_done (tokens.map (Token.relined line)) (n + k)
  have hfuel : Parsed.fuelFor ((start tokens n).relabel line k).tokens = Parsed.fuelFor (start tokens n).tokens := by
    simp [Parsed.fuelFor, State.relabel]
  have hnat := (stmtNatural line k (Parsed.fuelFor (start tokens n).tokens)).declarations false (start tokens n)
  rw [hd] at hnat
  rw [start_relabel line k h n, hfuel, hnat] at hd'
  cases hd'
  rw [ho, ho']
  simp [Parsed.relabel, State.relabel]

end Parse

end LoxLang
