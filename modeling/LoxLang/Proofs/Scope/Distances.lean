import Mathlib.Data.List.Pairwise
import LoxLang.Proofs.Grammar.Identities
import LoxLang.Proofs.Scope.Exact
import LoxLang.Proofs.Scope.Programs

namespace LoxLang
open Scoping

mutual

/-- Each occurrence is one mention. Assignments come after their right sides here and before them in the tree, so the
order is another one. -/
theorem Expr.mentions_occurrences (S : Surroundings) :
    (e : Expr) → ((e.mentions S).filterMap Mention.occurrence?).Perm e.occurrences
  | .literal _ => .nil
  | .group inner => inner.mentions_occurrences S
  | .unary _ operand => operand.mentions_occurrences S
  | .binary left _ right => by
    rw [Expr.mentions, List.filterMap_append]
    exact (left.mentions_occurrences S).append (right.mentions_occurrences S)
  | .logical left _ right => by
    rw [Expr.mentions, List.filterMap_append]
    exact (left.mentions_occurrences S).append (right.mentions_occurrences S)
  | .ternary condition thenBranch elseBranch => by
    rw [Expr.mentions, List.filterMap_append, List.filterMap_append]
    exact ((condition.mentions_occurrences S).append (thenBranch.mentions_occurrences S)).append
      (elseBranch.mentions_occurrences S)
  | .variable _ _ => .refl _
  | .assign id name value => by
    rw [Expr.mentions, List.filterMap_append]
    exact (List.perm_append_singleton ⟨.assign, id, name⟩ _).trans ((value.mentions_occurrences S).cons _)
  | .this _ _ => .refl _
  | .call callee _ arguments => by
    rw [Expr.mentions, List.filterMap_append]
    exact (callee.mentions_occurrences S).append (Expr.mentionsAll_occurrences S arguments)
  | .get object _ => object.mentions_occurrences S
  | .set object _ value => by
    rw [Expr.mentions, List.filterMap_append]
    exact ((value.mentions_occurrences S).append (object.mentions_occurrences S)).trans List.perm_append_comm

theorem Expr.mentionsAll_occurrences (S : Surroundings) :
    (es : List Expr) → ((Expr.mentionsAll S es).filterMap Mention.occurrence?).Perm (Expr.occurrencesAll es)
  | [] => .nil
  | e :: es => by
    rw [Expr.mentionsAll, List.filterMap_append]
    exact (e.mentions_occurrences S).append (Expr.mentionsAll_occurrences S es)

end

theorem Function.parameterMentions_occurrences (routine : Routine) (cs : List Construct) (before ps : List Token) :
    (Function.parameterMentions routine cs before ps).filterMap Mention.occurrence? = [] := by
  induction ps generalizing before with
  | nil => rfl
  | cons p ps ih => exact ih (before ++ [p])

mutual

/-- By induction on the tree, with the mentions of declarations and of `return` left out. -/
theorem Stmt.mentions_occurrences (cs : List Construct) :
    (s : Stmt) → ((s.mentions cs).filterMap Mention.occurrence?).Perm s.occurrences
  | .expression value => value.mentions_occurrences _
  | .print value => value.mentions_occurrences _
  | .var _ none => .nil
  | .var _ (some value) => value.mentions_occurrences _
  | .block body => Stmt.mentionsAll_occurrences _ body
  | .branch condition thenBranch none => by
    rw [Stmt.mentions, List.filterMap_append]
    exact (condition.mentions_occurrences _).append (thenBranch.mentions_occurrences cs)
  | .branch condition thenBranch (some elseBranch) => by
    rw [Stmt.mentions, List.filterMap_append, List.filterMap_append]
    exact ((condition.mentions_occurrences _).append (thenBranch.mentions_occurrences cs)).append
      (elseBranch.mentions_occurrences _)
  | .loop condition body => by
    rw [Stmt.mentions, List.filterMap_append]
    exact (condition.mentions_occurrences _).append (body.mentions_occurrences cs)
  | .break _ => .nil
  | .return _ none => .nil
  | .return _ (some value) => value.mentions_occurrences _
  | .function f => f.mentions_occurrences .function _
  | .class _ methods => Function.mentionsAll_occurrences _ methods

theorem Stmt.mentionsAll_occurrences (cs : List Construct) :
    (ss : List Stmt) → ((Stmt.mentionsAll cs ss).filterMap Mention.occurrence?).Perm (Stmt.occurrencesAll ss)
  | [] => .nil
  | s :: ss => by
    rw [Stmt.mentionsAll, List.filterMap_append]
    exact (s.mentions_occurrences cs).append (Stmt.mentionsAll_occurrences _ ss)

theorem Function.mentions_occurrences (routine : Routine) (cs : List Construct) :
    (f : Function) → ((f.mentions routine cs).filterMap Mention.occurrence?).Perm f.occurrences
  | .mk _ parameters body => by
    rw [Function.mentions, List.filterMap_append, Function.parameterMentions_occurrences]
    exact Stmt.mentionsAll_occurrences _ body

theorem Function.mentionsAll_occurrences (cs : List Construct) : (fs : List Function) →
    ((Function.mentionsAll cs fs).filterMap Mention.occurrence?).Perm (Function.occurrencesAll fs)
  | [] => .nil
  | f :: fs => by
    rw [Function.mentionsAll, List.filterMap_append]
    exact (f.mentions_occurrences _ cs).append (Function.mentionsAll_occurrences cs fs)

end

namespace Scoping.Mention

variable {m : Mention} {o : Occurrence} {id : OccurrenceId} {d : Nat}

/-- What is in order is noted as far out as its surroundings tell. -/
theorem noted?_of_occurrence (ho : m.occurrence? = some o) (hb : ∀ cause, ¬m.Breaks cause) :
    m.noted? = (m.surroundings.distance? o.token.lexeme).map fun d => (o.id, d) := by
  obtain ⟨form, token, S⟩ := m
  cases form with
  | this i =>
    cases ho
    have hclass : Construct.inClass S.constructs = true := by
      rw [← Bool.not_eq_false]
      exact fun h => hb _ (.thisOutsideClass h)
    simp [noted?, hclass]
  | «variable» i | assign i =>
    cases ho
    rfl
  | _ => cases ho

theorem token_of_occurrence (ho : m.occurrence? = some o) : o.token = m.token := by
  obtain ⟨form, token, S⟩ := m
  cases form <;> cases ho <;> rfl

/-- Declarations and `return` have nothing noted. -/
theorem occurrence?_of_noted (h : m.noted? = some (id, d)) : ∃ o, m.occurrence? = some o ∧ o.id = id := by
  obtain ⟨form, token, S⟩ := m
  have hid : ∀ i, ((S.distance? token.lexeme).map fun d => (i, d)) = some (id, d) → i = id := by
    intro i hi
    obtain ⟨d', -, he⟩ := Option.map_eq_some_iff.1 hi
    exact congrArg Prod.fst he
  cases form with
  | this i =>
    refine ⟨_, rfl, ?_⟩
    unfold noted? at h
    dsimp only at h
    split at h
    · exact hid i h
    · cases h
  | «variable» i | assign i => exact ⟨_, rfl, hid i h⟩
  | _ => cases h

/-- Mentions of one identity are one mention, where each identity occurs once. -/
theorem eq_of_occurrence {ms : List Mention} (hnodup : ((ms.filterMap occurrence?).map Occurrence.id).Nodup)
    {m' : Mention} {o' : Occurrence} (hm : m ∈ ms) (hm' : m' ∈ ms) (ho : m.occurrence? = some o)
    (ho' : m'.occurrence? = some o') (hid : o.id = o'.id) : m = m' := by
  rw [List.Nodup, List.pairwise_map, List.pairwise_filterMap] at hnodup
  have hsymm : Std.Symm fun a a' : Mention =>
      ∀ b, a.occurrence? = some b → ∀ b', a'.occurrence? = some b' → b.id ≠ b'.id :=
    ⟨fun a a' h b hb b' hb' he => h b' hb' b hb he.symm⟩
  by_contra hne
  exact hnodup.forall hm hm' hne o ho o' ho' hid

end Scoping.Mention

namespace Interpreter

/-- The interpreters that there can be where the identities before a certain one have been given out. -/
inductive Arises : OccurrenceId → Interpreter → Prop
  | initial (n : OccurrenceId) : Arises n .initial
  | later {n n' : OccurrenceId} {i : Interpreter} (h : Arises n i) (hn : n ≤ n') : Arises n' i
  | bound {n : OccurrenceId} {i i' : Interpreter} {program : List Stmt} (h : Arises n i)
    (hids : ∀ o ∈ Stmt.occurrencesAll program, o.id < n) (hb : i.bind program = .ok i') : Arises n i'
  | interpreted {n : OccurrenceId} {i i' : Interpreter} {c : Conditions} {program : List Stmt}
    {error : Option RuntimeError} (h : Arises n i) (hr : i.interpret c program = some (error, i')) : Arises n i'
  | evaluated {n : OccurrenceId} {i i' : Interpreter} {c : Conditions} {e : Expr} {result : Except RuntimeError Value}
    (h : Arises n i) (hr : i.evaluate c e = some (result, i')) : Arises n i'
  | printed {n : OccurrenceId} {i : Interpreter} (h : Arises n i) : Arises n i.takePrinted.2
  | forgotten {n : OccurrenceId} {i : Interpreter} (h : Arises n i) : Arises n i.forgetTopLevel

variable {i i' : Interpreter} {n : OccurrenceId} {program : List Stmt}

/-- What is accepted breaks no rule, and what is noted of it is told by its mentions. -/
theorem bind_exact (h : i.bind program = .ok i') :
    (∀ m ∈ Stmt.mentionsAll [] program, ∀ cause, ¬m.Breaks cause) ∧
      i'.distances = ((Stmt.mentionsAll [] program).filterMap Mention.noted?).foldl (fun t d => t.insert d.1 d.2)
        i.distances := by
  obtain ⟨herrors, hdistances⟩ := Binding.walk_exact program
  unfold Interpreter.bind at h
  rw [Binding.ofProgram_eq] at h
  split at h
  · next hempty =>
    cases h
    rw [Array.isEmpty_iff] at hempty
    rw [hempty] at herrors
    refine ⟨fun m hm cause hb => ?_, by simp [addBinding, distances_foldl_note, hdistances]⟩
    have hnone := List.filterMap_eq_nil_iff.1 herrors.symm m hm
    rw [Mention.error?, (Mention.breach?_iff m cause).2 hb] at hnone
    cases hnone
  · cases h

/-- What is noted of a program is noted of one of its occurrences. -/
theorem occurrence_of_noted {id : OccurrenceId} {d : Nat}
    (h : (id, d) ∈ (Stmt.mentionsAll [] program).filterMap Mention.noted?) :
    ∃ m ∈ Stmt.mentionsAll [] program, m.noted? = some (id, d) ∧
      ∃ o ∈ Stmt.occurrencesAll program, m.occurrence? = some o ∧ o.id = id := by
  obtain ⟨m, hm, hnoted⟩ := List.mem_filterMap.1 h
  obtain ⟨o, ho, hid⟩ := Mention.occurrence?_of_noted hnoted
  exact ⟨m, hm, hnoted, o, (Stmt.mentionsAll_occurrences [] program).subset (List.mem_filterMap.2 ⟨m, hm, ho⟩), ho, hid⟩

/-- Entries of identities that are not in a program stay as they are. -/
theorem bind_elsewhere (h : i.bind program = .ok i') {id : OccurrenceId}
    (hid : ∀ o ∈ Stmt.occurrencesAll program, o.id ≠ id) : i'.distances[id]? = i.distances[id]? := by
  rw [(bind_exact h).2]
  refine getElem?_foldl_insert_of_not_mem fun hmem => ?_
  obtain ⟨⟨_, d⟩, hd, rfl⟩ := List.mem_map.1 hmem
  obtain ⟨m, -, -, o, ho, -, he⟩ := occurrence_of_noted hd
  exact hid o ho he

theorem getElem?_forgetTopLevel {id : OccurrenceId} (h : i.distances[id]? = none) :
    i.forgetTopLevel.distances[id]? = none := by
  unfold forgetTopLevel
  dsimp only
  rw [getElem?_foldl_erase]
  split
  · rfl
  · exact h

/-- Nothing is noted of identities that have not been given out. -/
theorem Arises.getElem?_eq_none (h : Arises n i) : ∀ id, n ≤ id → i.distances[id]? = none := by
  induction h with
  | initial n => exact fun id _ => Std.ExtTreeMap.getElem?_empty
  | later h hn ih => exact fun id hid => ih id (Nat.le_trans hn hid)
  | bound h hids hb ih =>
    intro id hid
    refine (bind_elsewhere hb fun o ho he => ?_).trans (ih id hid)
    have hlt := hids o ho
    rw [he] at hlt
    exact Nat.lt_irrefl id (Nat.lt_of_lt_of_le hlt hid)
  | interpreted h hr ih =>
    intro id hid
    unfold interpret concluded at hr
    split at hr <;> cases hr
    all_goals exact getElem?_forgetTopLevel (ih id hid)
  | evaluated h hr ih =>
    intro id hid
    unfold Interpreter.evaluate at hr
    split at hr <;> cases hr
    all_goals exact ih id hid
  | printed h ih => exact ih
  | forgotten h ih => exact fun id hid => getElem?_forgetTopLevel (ih id hid)

/-- After a program is bound, the entry of each of its occurrences is the number of constructs outward to the first that
has declared its name before it, and there is none if none has. Other entries stay as they are. -/
theorem distances_are_lexical {tokens : List Token} (h : Arises n i)
    (hb : i.bind (Parsed.ofTokens tokens n).statements = .ok i') :
    let program := (Parsed.ofTokens tokens n).statements
    ((Stmt.mentionsAll [] program).filterMap Mention.occurrence?).Perm (Stmt.occurrencesAll program) ∧
    (∀ m ∈ Stmt.mentionsAll [] program, ∀ o, m.occurrence? = some o →
      i'.distances[o.id]? = m.surroundings.distance? o.token.lexeme) ∧
    ∀ id, (∀ o ∈ Stmt.occurrencesAll program, o.id ≠ id) → i'.distances[id]? = i.distances[id]? := by
  intro program
  have hperm := Stmt.mentionsAll_occurrences [] program
  refine ⟨hperm, fun m hm o ho => ?_, fun id hid => bind_elsewhere hb hid⟩
  have hids := Parse.ofTokens_givenOut tokens n
  have hnodup : (((Stmt.mentionsAll [] program).filterMap Mention.occurrence?).map Occurrence.id).Nodup :=
    (hperm.map Occurrence.id).nodup_iff.2 hids.nodup
  have hmem : o ∈ Stmt.occurrencesAll program := hperm.subset (List.mem_filterMap.2 ⟨m, hm, ho⟩)
  have hbefore := h.getElem?_eq_none o.id (hids.first_le _ (List.mem_map_of_mem hmem))
  obtain ⟨hrules, hdistances⟩ := bind_exact hb
  have hnoted := Mention.noted?_of_occurrence ho (hrules m hm)
  -- Only the mention itself is noted under its identity.
  have honly : ∀ d, (o.id, d) ∈ (Stmt.mentionsAll [] program).filterMap Mention.noted? ↔
      m.surroundings.distance? o.token.lexeme = some d := by
    intro d
    constructor
    · intro hd
      obtain ⟨m', hm', hn', o', -, ho', he⟩ := occurrence_of_noted hd
      obtain rfl := Mention.eq_of_occurrence hnodup hm hm' ho ho' he.symm
      rw [hnoted] at hn'
      obtain ⟨d', hd', he'⟩ := Option.map_eq_some_iff.1 hn'
      rw [hd', (Prod.mk.inj he').2]
    · intro hd
      exact List.mem_filterMap.2 ⟨m, hm, by rw [hnoted, hd]; rfl⟩
  rw [hdistances]
  cases hd : m.surroundings.distance? o.token.lexeme with
  | some d =>
    obtain ⟨d', hd'⟩ := Option.isSome_iff_exists.1
      (isSome_getElem?_foldl_insert (t := i.distances) (.inl ((honly d).2 hd)))
    rcases getElem?_foldl_insert hd' with hin | hin
    · rw [hd', ← (honly d').1 hin, hd]
    · rw [hbefore] at hin
      cases hin
  | none =>
    rw [getElem?_foldl_insert_of_not_mem, hbefore]
    intro hin
    obtain ⟨⟨_, d⟩, hd', rfl⟩ := List.mem_map.1 hin
    have := (honly d).1 hd'
    rw [hd] at this
    cases this

/-- A block reads a parameter before it declares a variable of the same name, and then that variable. -/
theorem shadowing_counts_from_its_declaration :
    let source := "fun f(a) \x7b \x7b print a; var a = 1; print a; \x7d \x7d"
    let program := (Parsed.ofTokens (Token.ofSource source) 0).statements
    ∃ i', initial.bind program = .ok i' ∧ i'.distances[0]? = some 1 ∧ i'.distances[1]? = some 0 := by
  intro source program
  have hok : (initial.bind program).toOption.isSome = true := by decide +kernel
  cases hb : initial.bind program with
  | error es =>
    rw [hb] at hok
    cases hok
  | ok i' =>
    obtain ⟨-, hdistances, -⟩ := distances_are_lexical (.initial 0) hb
    have htold : ∀ o d, (some o, d) ∈
        ((Stmt.mentionsAll [] program).map fun m => (m.occurrence?, m.surroundings.distance? m.token.lexeme)) →
        i'.distances[o.id]? = d := by
      intro o d hmem
      obtain ⟨m, hm, heq⟩ := List.mem_map.1 hmem
      obtain ⟨ho, rfl⟩ := Prod.mk.inj heq
      rw [hdistances m hm o ho, Mention.token_of_occurrence ho]
    have hfirst := htold ⟨.variable, 0, ⟨.identifier, "a", 1⟩⟩ (some 1) (by decide +kernel)
    have hsecond := htold ⟨.variable, 1, ⟨.identifier, "a", 1⟩⟩ (some 0) (by decide +kernel)
    exact ⟨i', rfl, hfirst, hsecond⟩

end Interpreter

end LoxLang
