import LoxLang.Proofs.Scope.Walk
import LoxLang.Proofs.Scope.Relabel

namespace LoxLang
open Scoping

/-- At the top level no names are kept. -/
theorem Scoping.Context.after_top (s : Stmt) : Context.top.after s = Context.top := by
  cases s with
  | var name initializer => cases initializer <;> rfl
  | _ => rfl

theorem Scoping.Context.afterAll_top (ss : List Stmt) : Context.top.afterAll ss = Context.top := by
  induction ss with
  | nil => rfl
  | cons s ss ih =>
    change (Context.top.after s).afterAll ss = Context.top
    rw [Context.after_top, ih]

theorem Stmt.sitesAll_append (c : Context) (ss us : List Stmt) :
    Stmt.sitesAll c (ss ++ us) = Stmt.sitesAll c ss ++ Stmt.sitesAll (c.afterAll ss) us := by
  induction ss generalizing c with
  | nil => rfl
  | cons s ss ih =>
    rw [List.cons_append, Stmt.sitesAll, Stmt.sitesAll, ih, List.append_assoc]
    rfl

namespace Binding

/-- The walk over a whole program goes on from its first part to the second. -/
theorem stmts_append (place : Place) (ss us : List Stmt) (w : Walk) :
    stmts place (ss ++ us) w = stmts place us (stmts place ss w) := by
  induction ss generalizing w with
  | nil => rfl
  | cons s ss ih => exact ih (stmt place s w)

/-- The walk over a program from its start. -/
def walk (program : List Stmt) : Walk := stmts ⟨.topLevel, false⟩ program .start

theorem ofProgram_eq (program : List Stmt) :
    ofProgram program = if (walk program).errors.isEmpty
      then .ok ⟨(walk program).distances.toList, (walk program).topLevel.toList⟩
      else .error (walk program).errors.toList := rfl

/-- A program is accepted if its walk reports nothing. -/
theorem exists_ofProgram_iff {program : List Stmt} :
    (∃ b, ofProgram program = .ok b) ↔ (walk program).errors = #[] := by
  rw [ofProgram_eq, ← Array.isEmpty_iff]
  split
  · next h => exact ⟨fun _ => h, fun _ => ⟨_, rfl⟩⟩
  · next h =>
    refine ⟨fun hb => ?_, fun he => absurd he h⟩
    obtain ⟨b, hb⟩ := hb
    cases hb

/-- At the end of an accepted program no scopes are left. -/
theorem walk_scopes {program : List Stmt} (hf : Stmt.FormedAll program) (h : (walk program).errors = #[]) :
    (walk program).scopes = [] := by
  obtain ⟨ha, -⟩ := (stmts_pass .top rfl program hf).passes .start rfl h
  rw [Context.afterAll_top] at ha
  exact List.map_eq_nil_iff.1 ha

/-- After an accepted program a relabelled one is accepted if it was accepted before. -/
theorem ofProgram_seam {ss us : List Stmt} {line : Nat → Nat} {id : OccurrenceId → OccurrenceId}
    (hf : Stmt.FormedAll ss) (hs : ∃ b, ofProgram ss = .ok b) (hu : ∃ b, ofProgram us = .ok b) :
    ∃ b, ofProgram (ss ++ Stmt.relabelAll line id us) = .ok b := by
  rw [exists_ofProgram_iff] at hs hu ⊢
  have hstart : walk ss = Walk.start.after (walk ss) line id := by
    have hscopes := walk_scopes hf hs
    cases hw : walk ss with
    | mk scopes errors distances topLevel =>
      rw [hw] at hscopes
      have hnil : scopes = [] := hscopes
      simp [Walk.after, Walk.start, hnil]
  have hcarry : stmts ⟨.topLevel, false⟩ (Stmt.relabelAll line id us) (Walk.start.after (walk ss) line id) =
      (walk us).after (walk ss) line id := stmts_carry ⟨.topLevel, false⟩ us .start
  unfold walk
  rw [stmts_append]
  change (stmts ⟨.topLevel, false⟩ (Stmt.relabelAll line id us) (walk ss)).errors = #[]
  rw [hstart, hcarry]
  simp [Walk.after, hs, hu]

/-- The binding of a relabelled program. -/
def relabel (id : OccurrenceId → OccurrenceId) (b : Binding) : Binding :=
  ⟨b.distances.map fun d => (id d.1, d.2), b.topLevel.map id⟩

/-- A relabelled program has the same binding or the same errors, relabelled. -/
theorem ofProgram_relabelAll (line : Nat → Nat) (id : OccurrenceId → OccurrenceId) (us : List Stmt) :
    ofProgram (Stmt.relabelAll line id us) = match ofProgram us with
      | .ok b => .ok (b.relabel id)
      | .error es => .error (es.map (BindingError.relined line)) := by
  have hstart : Walk.start.after .start line id = Walk.start := by simp [Walk.after, Walk.start]
  have hcarry : stmts ⟨.topLevel, false⟩ (Stmt.relabelAll line id us) (Walk.start.after .start line id) =
      (walk us).after .start line id := stmts_carry ⟨.topLevel, false⟩ us .start
  rw [hstart] at hcarry
  change walk (Stmt.relabelAll line id us) = (walk us).after .start line id at hcarry
  rw [ofProgram_eq, ofProgram_eq, hcarry]
  by_cases herrors : (walk us).errors = #[]
  · simp [Walk.after, Walk.start, herrors, relabel]
  · simp [Walk.after, Walk.start, herrors]

/-- A relabelled program is accepted if it was accepted before. -/
theorem ofProgram_relabel {us : List Stmt} {line : Nat → Nat} {id : OccurrenceId → OccurrenceId}
    (hu : ∃ b, ofProgram us = .ok b) : ∃ b, ofProgram (Stmt.relabelAll line id us) = .ok b := by
  obtain ⟨b, hb⟩ := hu
  rw [ofProgram_relabelAll, hb]
  exact ⟨_, rfl⟩

/-- On other lines a program has the same binding. -/
theorem ofProgram_relined {us : List Stmt} {b : Binding} (line : Nat → Nat) (hu : ofProgram us = .ok b) :
    ofProgram (Stmt.relabelAll line id us) = .ok b := by
  rw [ofProgram_relabelAll, hu]
  simp [relabel]

end Binding

end LoxLang
