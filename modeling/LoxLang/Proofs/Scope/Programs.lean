import Mathlib.Data.List.Nodup
import LoxLang.Session
import LoxLang.Proofs.Grammar.Programs
import LoxLang.Proofs.Scope.Walk
import LoxLang.Proofs.Scope.Words

namespace LoxLang
open Scoping

/-- The program of a source, as a session runs it. -/
def Program.ofSource (echo : Bool) (source : String) (n : OccurrenceId) : List Stmt :=
  let statements := (Parsed.ofTokens (Token.ofSource source) n).statements
  if echo then statements.map Stmt.echoed else statements

/-- A program without syntax errors, its occurrences numbered from `first` on and before `next`. -/
structure Program.Read (first next : OccurrenceId) (program : List Stmt) : Prop where
  formed : Stmt.FormedAll program
  worded : ∀ σ ∈ Stmt.sitesAll .top program, σ.Worded
  ids : GivenOut first next ((Stmt.sitesAll .top program).map Site.id)

namespace Program.Read

variable {n n' : OccurrenceId} {program : List Stmt} {σ τ : Site}

/-- Two sites of a program with one identity are the same. -/
theorem site_eq (h : Program.Read n n' program) (hσ : σ ∈ Stmt.sitesAll .top program)
    (hτ : τ ∈ Stmt.sitesAll .top program) (he : σ.id = τ.id) : σ = τ :=
  List.inj_on_of_nodup_map h.ids.nodup hσ hτ he

theorem first_le (h : Program.Read n n' program) (hσ : σ ∈ Stmt.sitesAll .top program) : n ≤ σ.id :=
  h.ids.first_le _ (List.mem_map_of_mem hσ)

theorem lt_next (h : Program.Read n n' program) (hσ : σ ∈ Stmt.sitesAll .top program) : σ.id < n' :=
  h.ids.lt_next _ (List.mem_map_of_mem hσ)

end Program.Read

/-- Echoing concerns neither declarations nor occurrences. -/
theorem Stmt.echoed_sites (c : Context) (s : Stmt) : s.echoed.sites c = s.sites c := by
  cases s <;> rfl

theorem Stmt.echoed_after (c : Context) (s : Stmt) : c.after s.echoed = c.after s := by
  cases s with
  | var name initializer => cases initializer <;> rfl
  | _ => rfl

theorem Stmt.echoed_formed (s : Stmt) (h : s.Formed) : s.echoed.Formed := by
  cases s <;> exact h

theorem Stmt.sitesAll_echoed (c : Context) (ss : List Stmt) :
    Stmt.sitesAll c (ss.map Stmt.echoed) = Stmt.sitesAll c ss := by
  induction ss generalizing c with
  | nil => rfl
  | cons s ss ih =>
    rw [List.map_cons, Stmt.sitesAll, Stmt.sitesAll, Stmt.echoed_sites, Stmt.echoed_after, ih]

theorem Stmt.formedAll_echoed {ss : List Stmt} (h : Stmt.FormedAll ss) : Stmt.FormedAll (ss.map Stmt.echoed) := by
  induction ss with
  | nil => trivial
  | cons s ss ih => exact ⟨s.echoed_formed h.1, ih h.2⟩

/-- What is read without an error from tokens as a source has them. -/
theorem Program.read_ofTokens {tokens : List Token} {n : OccurrenceId} (hs : ∀ t ∈ tokens, t.Spelled)
    (h : (Parsed.ofTokens tokens n).errors = []) :
    Program.Read n (Parsed.ofTokens tokens n).nextId (Parsed.ofTokens tokens n).statements := by
  have hr := Parse.ofTokens_sound h
  have hw := Grammar.declarations_worded hr fun t ht => hs t ((List.takeWhile_sublist _).subset ht)
  have hids := (Parse.ofTokens_complete n hr).2.2.perm
    ((Stmt.sitesOfAll .top (Parsed.ofTokens tokens n).statements).map Occurrence.id).symm
  rw [List.map_map] at hids
  exact ⟨Grammar.declarations_formed hr, hw .top .top, hids⟩

/-- A source without syntax errors is read as such a program, whether or not its expressions are echoed. -/
theorem Program.ofSource_read (echo : Bool) {source : String} {n : OccurrenceId}
    (h : (Parsed.ofTokens (Token.ofSource source) n).errors = []) :
    Program.Read n (Parsed.ofTokens (Token.ofSource source) n).nextId (Program.ofSource echo source n) := by
  have hread := Program.read_ofTokens (fun t ht => Token.ofSource_spelled ht) h
  unfold Program.ofSource
  dsimp only
  split
  · refine ⟨Stmt.formedAll_echoed hread.formed, ?_, ?_⟩
    · rw [Stmt.sitesAll_echoed]
      exact hread.worded
    · rw [Stmt.sitesAll_echoed]
      exact hread.ids
  · exact hread

namespace Interpreter

/-- Notes are added one by one, a later one of an identity in place of an earlier one. -/
theorem distances_foldl_note (i : Interpreter) (ds : List (OccurrenceId × Nat)) :
    ds.foldl (fun i d => i.note d.1 d.2) i =
      { i with distances := ds.foldl (fun t d => t.insert d.1 d.2) i.distances } := by
  induction ds generalizing i with
  | nil => rfl
  | cons d ds ih => exact ih (i.note d.1 d.2)

/-- What is found was there before or is noted now. -/
theorem getElem?_foldl_insert {t : Distances} {ds : List (OccurrenceId × Nat)} {k : OccurrenceId} {d : Nat}
    (h : (ds.foldl (fun t d => t.insert d.1 d.2) t)[k]? = some d) : (k, d) ∈ ds ∨ t[k]? = some d := by
  induction ds generalizing t with
  | nil => exact .inr h
  | cons e ds ih =>
    rcases ih h with h | h
    · exact .inl (List.mem_cons_of_mem _ h)
    · rw [Std.ExtTreeMap.getElem?_insert] at h
      split at h
      · next he =>
        cases h
        rw [Nat.compare_eq_eq] at he
        exact .inl (he ▸ List.mem_cons_self)
      · exact .inr h

theorem isSome_getElem?_foldl_insert {t : Distances} {ds : List (OccurrenceId × Nat)} {k : OccurrenceId} {d : Nat}
    (h : (k, d) ∈ ds ∨ t[k]?.isSome) : (ds.foldl (fun t d => t.insert d.1 d.2) t)[k]?.isSome := by
  induction ds generalizing t with
  | nil => simpa using h
  | cons e ds ih =>
    refine ih ?_
    rw [List.mem_cons, or_assoc, or_left_comm] at h
    refine h.imp_right fun h => ?_
    rw [Std.ExtTreeMap.getElem?_insert]
    split
    · rfl
    · next hne =>
      rcases h with rfl | h
      · exact absurd (Nat.compare_eq_eq.2 rfl) hne
      · exact h

theorem getElem?_foldl_insert_of_not_mem {t : Distances} {ds : List (OccurrenceId × Nat)} {k : OccurrenceId}
    (h : k ∉ ds.map Prod.fst) : (ds.foldl (fun t d => t.insert d.1 d.2) t)[k]? = t[k]? := by
  induction ds generalizing t with
  | nil => rfl
  | cons e ds ih =>
    rw [List.map_cons, List.mem_cons, not_or] at h
    rw [List.foldl_cons, ih h.2, Std.ExtTreeMap.getElem?_insert, if_neg]
    rw [Nat.compare_eq_eq]
    exact fun he => h.1 he.symm

theorem getElem?_foldl_erase {t : Distances} {ids : List OccurrenceId} {k : OccurrenceId} :
    (ids.foldl (fun t id => t.erase id) t)[k]? = if k ∈ ids then none else t[k]? := by
  induction ids generalizing t with
  | nil => simp
  | cons e ids ih =>
    rw [List.foldl_cons, ih, Std.ExtTreeMap.getElem?_erase]
    by_cases hk : k ∈ ids
    · simp [hk]
    · by_cases he : e = k
      · simp [he]
      · simp [hk, he, Ne.symm he]

/-- Each site is noted with its own distance, if no other site has its identity. -/
theorem getElem?_foldl_noted {t : Distances} {σs : List Site} (hids : (σs.map Site.id).Nodup) {σ : Site} (hσ : σ ∈ σs)
    (ht : t[σ.id]? = none) :
    ((σs.filterMap Binding.noted).foldl (fun t d => t.insert d.1 d.2) t)[σ.id]? = σ.distance? := by
  have hmem : ∀ d, (σ.id, d) ∈ σs.filterMap Binding.noted ↔ σ.distance? = some d := by
    intro d
    rw [List.mem_filterMap]
    constructor
    · rintro ⟨τ, hτ, hd⟩
      obtain ⟨d', hd', he⟩ := Option.map_eq_some_iff.1 hd
      obtain ⟨hid, rfl⟩ := Prod.mk.inj he
      rw [List.inj_on_of_nodup_map hids hσ hτ hid.symm, hd']
    · exact fun hd => ⟨σ, hσ, by simp [Binding.noted, hd]⟩
  cases hd : ((σs.filterMap Binding.noted).foldl (fun t d => t.insert d.1 d.2) t)[σ.id]? with
  | some d =>
    rcases getElem?_foldl_insert hd with h | h
    · exact ((hmem d).1 h).symm
    · rw [ht] at h
      cases h
  | none =>
    cases hσd : σ.distance? with
    | none => rfl
    | some d =>
      have hsome := isSome_getElem?_foldl_insert (t := t) (.inl ((hmem d).2 hσd))
      rw [hd] at hsome
      cases hsome

/-- Binding a program leaves the machine as it is. -/
theorem bind_ok {i i' : Interpreter} {program : List Stmt} (hf : Stmt.FormedAll program)
    (h : i.bind program = .ok i') :
    i'.machine = i.machine ∧
      i'.distances = ((Stmt.sitesAll .top program).filterMap Binding.noted).foldl (fun t d => t.insert d.1 d.2)
        i.distances ∧
      i'.topLevel = i.topLevel ++ (Stmt.sitesAll .top program).filterMap Binding.notedTopLevel ∧
      (∀ σ ∈ Stmt.sitesAll .top program, ¬Binding.Barred σ) ∧ Stmt.TidyAll .top program := by
  unfold Interpreter.bind at h
  cases hb : Binding.ofProgram program with
  | error es => rw [hb] at h; cases h
  | ok b =>
    rw [hb] at h
    cases h
    obtain ⟨hd, ht, hbar, htidy⟩ := Binding.ofProgram_ok hf hb
    rw [← hd, ← ht]
    refine ⟨?_, ?_, ?_, hbar, htidy⟩ <;> simp [addBinding, distances_foldl_note]

end Interpreter

end LoxLang
