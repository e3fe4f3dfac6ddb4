import LoxLang.Proofs.Run.Computations
import LoxLang.Proofs.Run.Ending.Values

namespace LoxLang.Eval

variable {α β : Type} {setting : Setting} {R : Region} {m : Machine} {d : Nat}

/-- The computation ended, with an error or as it should. -/
def Outcome.Meets (Q : α → Machine → Prop) : Outcome α → Prop
  | .done a m => Q a m
  | .failed _ _ => True
  | .exhausted => False

theorem Outcome.Meets.imp {Q P : α → Machine → Prop} {o : Outcome α} (h : o.Meets Q) (hq : ∀ a m, Q a m → P a m) :
    o.Meets P := by
  cases o with
  | done a m => exact hq a m h
  | failed => trivial
  | exhausted => cases h

/-- A computation that ended with an error stays ended, and the next one ends if it does from where the first did. -/
theorem meets_bind {x : Eval α} {f : α → Eval β} {Q : α → Machine → Prop} {P : β → Machine → Prop}
    (h : (x m).Meets Q) (hf : ∀ a m', Q a m' → (f a m').Meets P) : ((x >>= f) m).Meets P := by
  cases hx : x m with
  | done a m' =>
    rw [bind_done hx]
    rw [hx] at h
    exact hf a m' h
  | failed e m' =>
    rw [bind_failed hx]
    trivial
  | exhausted =>
    rw [hx] at h
    cases h

theorem meets_restoring {x : Eval α} {restore : Machine → Machine} {Q : α → Machine → Prop}
    (h : (x m).Meets fun a m' => Q a (restore m')) : (restoring restore x m).Meets Q := by
  unfold restoring
  cases hx : x m with
  | done a m' =>
    rw [hx] at h
    exact h
  | failed => trivial
  | exhausted =>
    rw [hx] at h
    cases h

theorem read_meets (f : Machine → α) (m : Machine) : (read f m).Meets fun a m' => f m = a ∧ m = m' := ⟨rfl, rfl⟩

/-- With enough fuel, one and the same outcome comes out, and the computation has ended. -/
def Settles (x : Nat → Eval α) (m : Machine) (Q : α → Machine → Prop) : Prop :=
  ∃ enough, ∃ o : Outcome α, o.Meets Q ∧ ∀ fuel, enough ≤ fuel → x fuel m = o

namespace Settles

/-- What takes no fuel. -/
theorem steady {x : Eval α} {Q : α → Machine → Prop} (h : (x m).Meets Q) : Settles (fun _ => x) m Q :=
  ⟨0, x m, h, fun _ _ => rfl⟩

theorem imp {x : Nat → Eval α} {Q P : α → Machine → Prop} (h : Settles x m Q) (hq : ∀ a m, Q a m → P a m) :
    Settles x m P := by
  obtain ⟨enough, o, ho, hx⟩ := h
  exact ⟨enough, o, ho.imp hq, hx⟩

/-- One level of evaluation takes one unit of fuel. -/
theorem succ {x : Nat → Eval α} {Q : α → Machine → Prop} (h : Settles (fun fuel => x (fuel + 1)) m Q) :
    Settles x m Q := by
  obtain ⟨enough, o, ho, hx⟩ := h
  refine ⟨enough + 1, o, ho, fun fuel hfuel => ?_⟩
  obtain ⟨fuel, rfl⟩ := Nat.exists_eq_add_of_le' hfuel
  exact hx (fuel + enough) (Nat.le_add_left ..)

/-- Those that end one after another have ended: with the greater of the two fuels both have. -/
theorem bind {x : Nat → Eval α} {f : α → Nat → Eval β} {Q : α → Machine → Prop} {P : β → Machine → Prop}
    (h : Settles x m Q) (hf : ∀ a m', Q a m' → Settles (f a) m' P) :
    Settles (fun fuel => x fuel >>= fun a => f a fuel) m P := by
  obtain ⟨enough, o, ho, hx⟩ := h
  cases o with
  | done a m' =>
    obtain ⟨enough', o', ho', hf⟩ := hf a m' ho
    refine ⟨max enough enough', o', ho', fun fuel hfuel => ?_⟩
    obtain ⟨hle, hle'⟩ := Nat.max_le.1 hfuel
    exact (bind_done (hx fuel hle)).trans (hf fuel hle')
  | failed e m' => exact ⟨enough, .failed e m', trivial, fun fuel hfuel => bind_failed (hx fuel hfuel)⟩
  | exhausted => cases ho

theorem restoring {x : Nat → Eval α} {restore : Machine → Machine} {Q : α → Machine → Prop}
    (h : Settles x m fun a m' => Q a (restore m')) : Settles (fun fuel => Eval.restoring restore (x fuel)) m Q := by
  obtain ⟨enough, o, ho, hx⟩ := h
  have hmeets : (Eval.restoring restore (x enough) m).Meets Q :=
    meets_restoring (by rw [hx enough (Nat.le_refl _)]; exact ho)
  refine ⟨enough, _, hmeets, fun fuel hfuel => ?_⟩
  simp only [Eval.restoring, hx fuel hfuel, hx enough (Nat.le_refl _)]

/-- A computation that leaves the machine in the region, in a scope of the region. -/
theorem inScope {x : Nat → Eval α} {s : ScopeId} {Q : α → Prop} (hm : m.Within R d)
    (h : Settles x { m with scope := s } fun a m' => Q a ∧ m'.Within R d) :
    Settles (fun fuel => Eval.inScope s (x fuel)) m fun a m' => Q a ∧ m'.Within R d := by
  have h' : Settles x { m with scope := s } fun a m' => Q a ∧ { m' with scope := m.scope }.Within R d :=
    h.imp fun a m' ha => ⟨ha.1, ha.2.of_eq rfl rfl hm.scope ha.2.depth⟩
  exact h'.restoring (m := { m with scope := s })

theorem outsideLoops {x : Nat → Eval α} {Q : α → Prop}
    (h : Settles x { m with loopDepth := 0 } fun a m' => Q a ∧ m'.Within R d) :
    Settles (fun fuel => Eval.outsideLoops (x fuel)) m fun a m' => Q a ∧ m'.Within R d := by
  have h' : Settles x { m with loopDepth := 0 } fun a m' => Q a ∧ { m' with loopDepth := m.loopDepth }.Within R d :=
    h.imp fun a m' ha => ⟨ha.1, ha.2.of_eq rfl rfl ha.2.scope ha.2.depth⟩
  exact h'.restoring (m := { m with loopDepth := 0 })

theorem inCall {x : Nat → Eval α} {Q : α → Prop}
    (h : Settles x { m with callDepth := m.callDepth + 1 } fun a m' => Q a ∧ m'.Within R (d + 1)) :
    Settles (fun fuel => Eval.inCall (x fuel)) m fun a m' => Q a ∧ m'.Within R d := by
  have h' : Settles x { m with callDepth := m.callDepth + 1 } fun a m' =>
      Q a ∧ { m' with callDepth := m'.callDepth - 1 }.Within R d := by
    refine h.imp fun a m' ha => ⟨ha.1, ha.2.of_eq rfl rfl ha.2.scope ?_⟩
    rw [ha.2.depth, Nat.add_sub_cancel]
  exact h'.restoring (m := { m with callDepth := m.callDepth + 1 })

end Settles

end LoxLang.Eval
