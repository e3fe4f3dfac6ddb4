import LoxLang.Proofs.Scope.Seam
import LoxLang.Proofs.Run.Programs
import LoxLang.Proofs.Run.Reliance
import LoxLang.Proofs.Run.Relabel.Evaluation

namespace LoxLang
open Scoping

namespace Interpreter

theorem runAll_append (setting : Setting) (fuel : Nat) (ss us : List Stmt) :
    runAll setting fuel (ss ++ us) = runAll setting fuel ss >>= fun _ => runAll setting fuel us := by
  induction ss with
  | nil => rfl
  | cons s ss ih =>
    calc
      runAll setting fuel (s :: (ss ++ us)) =
          Eval.execute setting fuel s >>= fun _ => runAll setting fuel (ss ++ us) := rfl
      _ = Eval.execute setting fuel s >>= fun _ => runAll setting fuel ss >>= fun _ => runAll setting fuel us := by
          rw [ih]
      _ = runAll setting fuel (s :: ss) >>= fun _ => runAll setting fuel us := (Eval.bind_assoc _ _ _).symm

/-- No more is needed of the distances than that they are right for the live sites. -/
theorem InOrder.runs_alike {sites : List Site} {log : List Moment} {i i' : Interpreter} {n n₀ n' : OccurrenceId}
    {program : List Stmt} (h : InOrder sites log i n) (hn : n ≤ n₀) (hp : Program.Read n₀ n' program)
    (hb : i.bind program = .ok i') (c : Conditions) {t : Distances}
    (ht : ∀ σ, Live sites program σ → t[σ.id]? = σ.distance?) :
    runAll ⟨t, c.clock⟩ c.fuel program i'.machine = runAll (i'.setting c) c.fuel program i'.machine := by
  have hsound := (h.runs hn hp hb c).sound
  have hfollows := Logged.runAll_follows (i'.setting c) t c.fuel program i'.machine
  have hagree : ∀ μ ∈ (Logged.runAll (i'.setting c) c.fuel program i'.machine).2,
      t[μ.occurrence.id]? = μ.distance := by
    intro μ hμ
    obtain ⟨σ, hσ, hat⟩ := hsound.at_site μ hμ
    rw [hat.distance, ← ht σ hσ, ← hat.occurrence]
    rfl
  have hplain : (Logged.runAll (i'.setting c) c.fuel program i'.machine).1 =
      runAll (i'.setting c) c.fuel program i'.machine :=
    congrFun (Logged.plain_runAll (i'.setting c) c.fuel program) i'.machine
  exact (hfollows hagree).trans hplain

/-- To bind a program that is accepted is to note its distances. -/
theorem bind_eq {program : List Stmt} {b : Binding} (h : Binding.ofProgram program = .ok b) (i : Interpreter) :
    i.bind program = .ok (i.addBinding b) := by
  unfold Interpreter.bind
  rw [h]
  rfl

theorem addBinding_machine (i : Interpreter) (b : Binding) : (i.addBinding b).machine = i.machine := by
  simp [addBinding, distances_foldl_note]

end Interpreter

theorem Stmt.formedAll_append {ss us : List Stmt} (hs : Stmt.FormedAll ss) (hu : Stmt.FormedAll us) :
    Stmt.FormedAll (ss ++ us) := by
  induction ss with
  | nil => exact hu
  | cons s ss ih => exact ⟨hs.1, ih hs.2⟩

/-- Nothing is declared in a scope at the top level, so the second part has the sites that it has on its own. -/
theorem Stmt.sitesAll_top_append (ss us : List Stmt) :
    Stmt.sitesAll .top (ss ++ us) = Stmt.sitesAll .top ss ++ Stmt.sitesAll .top us := by
  rw [Stmt.sitesAll_append, Context.afterAll_top]

/-- Two programs with identities one after the other are one program. -/
theorem Program.Read.append {n m n' : OccurrenceId} {ss us : List Stmt} (hs : Program.Read n m ss)
    (hu : Program.Read m n' us) : Program.Read n n' (ss ++ us) where
  formed := Stmt.formedAll_append hs.formed hu.formed
  worded := by
    intro σ hσ
    rw [Stmt.sitesAll_top_append] at hσ
    exact (List.mem_append.1 hσ).elim (hs.worded σ) (hu.worded σ)
  ids := by
    rw [Stmt.sitesAll_top_append, List.map_append]
    exact hs.ids.append hu.ids

namespace Interpreter

/-- What is left of an interpreter at the end of a run. -/
def ended (i : Interpreter) : Eval.Outcome Unit → Option (Option RuntimeError × Interpreter)
  | .done _ m => some (none, { i with machine := m }.forgetTopLevel)
  | .failed e m => some (some e, { i with machine := m }.forgetTopLevel)
  | .exhausted => none

theorem interpret_eq (i : Interpreter) (c : Conditions) (program : List Stmt) :
    i.interpret c program = i.ended (runAll (i.setting c) c.fuel program i.machine) := rfl

section

variable {ss us : List Stmt} {n n' : OccurrenceId} {b b' whole : Binding} {m : Machine}

/-- The distances of a whole program serve its first part as well as the part's own do. -/
theorem first_part (hs : Program.Read 0 n ss) (hu : Program.Read n n' us) (hb : Binding.ofProgram ss = .ok b)
    (hw : Binding.ofProgram (ss ++ us) = .ok whole) (c : Conditions) :
    runAll ((initial.addBinding whole).setting c) c.fuel ss .initial =
      runAll ((initial.addBinding b).setting c) c.fuel ss .initial := by
  have hagree := InOrder.initial.agrees (Nat.le_refl 0) (hs.append hu) (bind_eq hw initial) c
  have halike := InOrder.initial.runs_alike (Nat.le_refl 0) hs (bind_eq hb initial) c
    (t := (initial.addBinding whole).distances) fun σ hσ => ?_
  · rw [addBinding_machine] at halike
    exact halike
  · refine hagree σ (.inl ?_)
    rw [Stmt.sitesAll_top_append]
    rcases hσ with hσ | hσ
    · exact List.mem_append_left _ hσ
    · cases hσ.1

/-- What the first part leaves, its printed lines taken. -/
def between (b : Binding) (m : Machine) : Interpreter :=
  ({ initial.addBinding b with machine := m }.forgetTopLevel).takePrinted.2

/-- The distances of a whole program serve its second part as well as those do that the part is run with after the
first, where the first has lost its own at the top level. -/
theorem second_part (hs : Program.Read 0 n ss) (hu : Program.Read n n' us) (hb : Binding.ofProgram ss = .ok b)
    (hb' : Binding.ofProgram us = .ok b') (hw : Binding.ofProgram (ss ++ us) = .ok whole) (c : Conditions)
    (hrun : runAll ((initial.addBinding b).setting c) c.fuel ss .initial = .done () m) :
    runAll ((initial.addBinding whole).setting c) c.fuel us { m with printed := #[] } =
      runAll (((between b m).addBinding b').setting c) c.fuel us { m with printed := #[] } := by
  have hagree := InOrder.initial.agrees (Nat.le_refl 0) (hs.append hu) (bind_eq hw initial) c
  have hr : (initial.addBinding b).interpret c ss =
      some (none, { initial.addBinding b with machine := m }.forgetTopLevel) := by
    rw [interpret_eq, addBinding_machine]
    exact congrArg (initial.addBinding b).ended hrun
  have horder := (InOrder.initial.interpreted (Nat.le_refl 0) hs (bind_eq hb initial) hr).taken
  have halike := horder.runs_alike (Nat.le_refl n) hu (bind_eq hb' (between b m)) c
    (t := (initial.addBinding whole).distances) fun σ hσ => ?_
  · rw [addBinding_machine] at halike
    exact halike
  · refine hagree σ (.inl ?_)
    rw [Stmt.sitesAll_top_append]
    rcases hσ with hσ | hσ
    · exact List.mem_append_right _ hσ
    · exact List.mem_append_left _ hσ.1

end

end Interpreter

end LoxLang
