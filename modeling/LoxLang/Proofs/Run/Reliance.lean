import LoxLang.Proofs.Run.Trace

namespace LoxLang

namespace Logged

variable {α β : Type} {t : Distances}

/-- The computation does what the logged one does, if the distances told agree with those that the latter has for the
occurrences it comes to. -/
def Follows (t : Distances) (x : Logged α) (y : Eval α) : Prop :=
  ∀ m, (∀ μ ∈ (x m).2, t[μ.occurrence.id]? = μ.distance) → y m = (x m).1

namespace Follows

theorem silent (y : Eval α) : Follows t (Telling.silent y) y := fun _ _ => rfl

theorem pure (a : α) : Follows t (Pure.pure a) (Pure.pure a) := fun _ _ => rfl

/-- What the second computation relies on is logged after what the first does. -/
theorem bind {x : Logged α} {y : Eval α} {f : α → Logged β} {f' : α → Eval β} (hx : Follows t x y)
    (hf : ∀ a, Follows t (f a) (f' a)) : Follows t (x >>= f) (y >>= f') := by
  intro m h
  rcases hxm : x m with ⟨⟨a, m'⟩ | ⟨e, m'⟩ | _, log⟩
  · rw [Telling.bind_done hxm] at h ⊢
    have hy := hx m fun μ hμ => h μ (List.mem_append_left _ (by rw [hxm] at hμ; exact hμ))
    rw [hxm] at hy
    rw [Eval.bind_done hy]
    exact hf a m' fun μ hμ => h μ (List.mem_append_right _ hμ)
  · rw [Telling.bind_failed hxm] at h ⊢
    have hy := hx m fun μ hμ => h μ (by rw [hxm] at hμ; exact hμ)
    rw [hxm] at hy
    rw [Eval.bind_failed hy]
  · rw [Telling.bind_exhausted hxm] at h ⊢
    have hy := hx m fun μ hμ => h μ (by rw [hxm] at hμ; exact hμ)
    rw [hxm] at hy
    rw [Eval.bind_exhausted hy]

theorem map {x : Logged α} {y : Eval α} (f : α → β) (hx : Follows t x y) : Follows t (f <$> x) (f <$> y) :=
  bind hx fun a => pure (f a)

/-- Under a combinator that starts the computation where it says, and asks nothing else of it. -/
theorem under {combinator : Eval α → Eval β} {enter : Machine → Machine} {x : Logged α} {y : Eval α}
    (hc : ∀ y' : Eval α, ∀ m, y (enter m) = y' (enter m) → combinator y m = combinator y' m) (hx : Follows t x y) :
    Follows t (Telling.under combinator enter x) (combinator y) :=
  fun m h => hc x.plain m (hx (enter m) h)

/-- A combinator asks for no distance. -/
theorem inScope {x : Logged α} {y : Eval α} (s : ScopeId) (hx : Follows t x y) :
    Follows t (Telling.inScope s x) (Eval.inScope s y) := by
  refine .under (fun y' m h => ?_) hx
  simp only [Eval.inScope, Eval.restoring, h]

theorem inLoop {x : Logged α} {y : Eval α} (hx : Follows t x y) : Follows t (Telling.inLoop x) (Eval.inLoop y) := by
  refine .under (fun y' m h => ?_) hx
  simp only [Eval.inLoop, Eval.restoring, h]

theorem outsideLoops {x : Logged α} {y : Eval α} (hx : Follows t x y) :
    Follows t (Telling.outsideLoops x) (Eval.outsideLoops y) := by
  refine .under (fun y' m h => ?_) hx
  simp only [Eval.outsideLoops, Eval.restoring, h]

theorem inCall {x : Logged α} {y : Eval α} (hx : Follows t x y) : Follows t (Telling.inCall x) (Eval.inCall y) := by
  refine .under (fun y' m h => ?_) hx
  simp only [Eval.inCall, Eval.restoring, h]

/-- The occurrence is logged, so it is one for which the distances agree. -/
theorem readName (setting : Setting) (form : Occurrence.Form) (id : OccurrenceId) (name : Token) :
    Follows t (Logged.readName setting form id name) (Eval.readName { setting with distances := t } id name) := by
  intro m h
  have hd : t[id]? = setting.distances[id]? := h ⟨⟨form, id, name⟩, setting, m⟩ List.mem_cons_self
  have hread : Eval.readName { setting with distances := t } id name = Eval.readName setting id name := by
    unfold Eval.readName
    rw [hd]
  rw [hread]
  rfl

theorem assignName (setting : Setting) (id : OccurrenceId) (name : Token) (value : Value) :
    Follows t (Logged.assignName setting id name value)
      (Eval.assignName { setting with distances := t } id name value) := by
  intro m h
  have hd : t[id]? = setting.distances[id]? := h ⟨⟨.assign, id, name⟩, setting, m⟩ List.mem_cons_self
  have hassign : Eval.assignName { setting with distances := t } id name value =
      Eval.assignName setting id name value := by
    rw [Eval.assignName_eq, Eval.assignName_eq, hd]
  rw [hassign]
  rfl

end Follows

theorem follows_composes (t : Distances) : Composes (fun α (x : Logged α) y => Follows t x y) where
  pure := .pure
  bind := .bind
  map := .map

/-- What a logged run does is done under the other distances if they agree. -/
theorem operations_follow (setting : Setting) (t : Distances) :
    Operations.Correspond (fun α (x : Logged α) y => Follows t x y) (operations setting)
      (Eval.operations { setting with distances := t }) where
  toComposes := follows_composes t
  look _ := .silent _
  childScope _ := .silent _
  define _ _ _ := .silent _
  declare _ _ := .silent _
  assign _ _ _ := .silent _
  newObject := .silent _
  setField _ _ _ := .silent _
  print _ := .silent _
  readClock := .silent _
  readName := .readName setting
  assignName := .assignName setting
  property _ _ _ := .silent _
  construct _ _ _ h := h
  inScope s _ _ h := .inScope s h
  inLoop h := .inLoop h
  outsideLoops h := .outsideLoops h
  inCall _ _ _ _ _ h := .bind (.silent _) fun _ => .inCall h
  turns hc hb fuel := by
    change Follows t _ (Eval.turns _ _ fuel)
    rw [Eval.turns_eq_repeated]
    exact (follows_composes t).repeated (.silent _) hc hb fuel

/-- A run of a program relies on the distances of the occurrences that it comes to, and on no others. -/
theorem runAll_follows (setting : Setting) (t : Distances) (fuel : Nat) (program : List Stmt) :
    Follows t (runAll setting fuel program) (Interpreter.runAll { setting with distances := t } fuel program) :=
  (follows_composes t).runAll ((operations_follow setting t).at fuel).execute program

end Logged

end LoxLang
