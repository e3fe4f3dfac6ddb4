import LoxLang.Proofs.Run.Seam

namespace LoxLang

namespace Interpreter

/-- The second interpreter differs from the first in nothing but identities. -/
structure Renumbered (ident : OccurrenceId → OccurrenceId) (i j : Interpreter) : Prop where
  machine : j.machine = i.machine.moved id ident #[]
  distances : ∀ k, j.distances[ident k]? = i.distances[k]?
  topLevel : j.topLevel = i.topLevel.map ident

namespace Renumbered

variable {ident : OccurrenceId → OccurrenceId} {i j : Interpreter} {program : List Stmt} {b : Binding}

/-- Under the same conditions the settings differ in identities only. -/
theorem setting (h : Renumbered ident i j) (c : Conditions) : (i.setting c).Relabels ident (j.setting c) :=
  ⟨rfl, h.distances⟩

theorem initial (ident : OccurrenceId → OccurrenceId) : Renumbered ident .initial .initial where
  machine := (Machine.initial_moved id ident).symm
  distances := by
    intro k
    simp [Interpreter.initial]
  topLevel := rfl

/-- Since no two identities are given the same new one, distances are added under the new ones as under the old. -/
theorem insertAll (hident : Function.Injective ident) {t t' : Distances} (h : ∀ k : OccurrenceId, t'[ident k]? = t[k]?)
    (ds : List (OccurrenceId × Nat)) (k : OccurrenceId) :
    ((ds.map fun d => (ident d.1, d.2)).foldl (fun t d => t.insert d.1 d.2) t')[ident k]? =
      (ds.foldl (fun t d => t.insert d.1 d.2) t)[k]? := by
  induction ds generalizing t t' with
  | nil => exact h k
  | cons d ds ih =>
    rw [List.map_cons, List.foldl_cons, List.foldl_cons]
    apply ih
    intro k
    rw [Std.ExtTreeMap.getElem?_insert, Std.ExtTreeMap.getElem?_insert]
    simp only [Std.LawfulEqCmp.compare_eq_iff_eq, hident.eq_iff, h]

theorem addBinding (hident : Function.Injective ident) (h : Renumbered ident i j) (b : Binding) :
    Renumbered ident (i.addBinding b) (j.addBinding (b.relabel ident)) where
  machine := by rw [addBinding_machine, addBinding_machine, h.machine]
  distances := by
    intro k
    have hi : (i.addBinding b).distances = b.distances.foldl (fun t d => t.insert d.1 d.2) i.distances := by
      simp [Interpreter.addBinding, distances_foldl_note]
    have hj : (j.addBinding (b.relabel ident)).distances =
        (b.distances.map fun d => (ident d.1, d.2)).foldl (fun t d => t.insert d.1 d.2) j.distances := by
      simp [Interpreter.addBinding, distances_foldl_note, Binding.relabel]
    rw [hi, hj]
    exact insertAll hident h.distances b.distances k
  topLevel := by
    simp [Interpreter.addBinding, distances_foldl_note, Binding.relabel, h.topLevel]

theorem forgetTopLevel (hident : Function.Injective ident) (h : Renumbered ident i j) :
    Renumbered ident i.forgetTopLevel j.forgetTopLevel where
  machine := h.machine
  distances := by
    intro k
    unfold Interpreter.forgetTopLevel
    dsimp only
    rw [getElem?_foldl_erase, getElem?_foldl_erase, h.topLevel, h.distances]
    simp only [List.mem_map_of_injective hident]
  topLevel := rfl

theorem takePrinted (h : Renumbered ident i j) :
    j.takePrinted.1 = i.takePrinted.1 ∧ Renumbered ident i.takePrinted.2 j.takePrinted.2 := by
  constructor
  · have hprinted : j.machine.printed = #[] ++ i.machine.printed := congrArg Machine.printed h.machine
    simp [Interpreter.takePrinted, hprinted]
  · refine ⟨?_, h.distances, h.topLevel⟩
    have hmachine := congrArg (fun m : Machine => { m with printed := #[] }) h.machine
    exact hmachine.trans (Machine.moved_taken id ident i.machine).symm

/-- Errors of binding have no identities in them, so they are the very same. -/
theorem bind_error {es : List BindingError} (hb : i.bind program = .error es) :
    j.bind (Stmt.relabelAll id ident program) = .error es := by
  unfold Interpreter.bind at hb ⊢
  rw [Binding.ofProgram_relabelAll]
  cases ho : Binding.ofProgram program with
  | ok b => rw [ho] at hb; cases hb
  | error es' =>
    rw [ho] at hb
    cases hb
    exact congrArg Except.error (List.map_id es)

/-- A program that the first accepts is accepted by the second, with the distances noted under the other identities. -/
theorem bind_ok (hident : Function.Injective ident) (h : Renumbered ident i j) {i' : Interpreter}
    (hb : i.bind program = .ok i') :
    ∃ j', j.bind (Stmt.relabelAll id ident program) = .ok j' ∧ Renumbered ident i' j' := by
  unfold Interpreter.bind at hb ⊢
  rw [Binding.ofProgram_relabelAll]
  cases ho : Binding.ofProgram program with
  | error es => rw [ho] at hb; cases hb
  | ok b =>
    rw [ho] at hb
    cases hb
    exact ⟨_, rfl, h.addBinding hident b⟩

/-- The run of a program comes to the same. -/
theorem interpret (hident : Function.Injective ident) (h : Renumbered ident i j) (c : Conditions)
    (program : List Stmt) :
    Option.Rel (fun r r' => r'.1 = r.1 ∧ Renumbered ident r.2 r'.2) (i.interpret c program)
      (j.interpret c (Stmt.relabelAll id ident program)) := by
  have hrun := runAll_moves id #[] (h.setting c) c.fuel program i.machine
  rw [← h.machine] at hrun
  rw [interpret_eq, interpret_eq, hrun]
  cases runAll (i.setting c) c.fuel program i.machine with
  | exhausted => exact .none
  | done u m =>
    have hm : Renumbered ident { i with machine := m } { j with machine := m.moved id ident #[] } :=
      ⟨rfl, h.distances, h.topLevel⟩
    exact .some ⟨rfl, hm.forgetTopLevel hident⟩
  | failed e m =>
    have hm : Renumbered ident { i with machine := m } { j with machine := m.moved id ident #[] } :=
      ⟨rfl, h.distances, h.topLevel⟩
    exact .some ⟨rfl, hm.forgetTopLevel hident⟩

end Renumbered

end Interpreter

end LoxLang
