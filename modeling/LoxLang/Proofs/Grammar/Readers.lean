import LoxLang.Grammar.Statements

namespace LoxLang.Parse

variable {α β : Type}

/-- An item and, behind a comma, more of them: how lists of arguments and of parameters are read. -/
def commas (item : Parse α) (others : Parse (List α)) : Parse (List α) := do
  let first ← item
  if ← accept (·.isMark .comma) then
    let rest ← others
    pure (first :: rest)
  else pure [first]

theorem bind_done {x : Parse α} {f : α → Parse β} {s s' : State} {a : α} (h : x s = .done a s') :
    (x >>= f) s = f a s' := by
  simp only [Bind.bind, h]

theorem bind_failed {x : Parse α} {f : α → Parse β} {s s' : State} {e : SyntaxError}
    (h : x s = .failed e s') : (x >>= f) s = .failed e s' := by
  simp only [Bind.bind, h]

theorem bind_exhausted {x : Parse α} {f : α → Parse β} {s : State} (h : x s = .exhausted) :
    (x >>= f) s = .exhausted := by
  simp only [Bind.bind, h]

/-- Where two readers one after the other succeed, so does the first. -/
theorem bind_eq_done {x : Parse α} {f : α → Parse β} {s s'' : State} {b : β}
    (h : (x >>= f) s = .done b s'') : ∃ a s', x s = .done a s' ∧ f a s' = .done b s'' := by
  cases hx : x s with
  | done a s' => exact ⟨a, s', rfl, (bind_done hx).symm.trans h⟩
  | failed e s' => cases (bind_failed hx).symm.trans h
  | exhausted => cases (bind_exhausted hx).symm.trans h

@[simp]
theorem pure_apply (a : α) (s : State) : (pure a : Parse α) s = .done a s := rfl

/-- How readers are put together does not matter. -/
theorem bind_assoc {γ : Type} (x : Parse α) (f : α → Parse β) (g : β → Parse γ) :
    x >>= f >>= g = x >>= fun a => f a >>= g := by
  funext s
  cases hx : x s with
  | done a s' =>
    rw [bind_done hx]
    cases hf : f a s' with
    | done b s'' => rw [bind_done hf, bind_done ((bind_done hx).trans hf)]
    | failed e s'' => rw [bind_failed hf, bind_failed ((bind_done hx).trans hf)]
    | exhausted => rw [bind_exhausted hf, bind_exhausted ((bind_done hx).trans hf)]
  | failed e s' => rw [bind_failed hx, bind_failed (bind_failed hx)]
  | exhausted => rw [bind_exhausted hx, bind_exhausted (bind_exhausted hx)]

theorem bind_pure (x : Parse α) : x >>= pure = x := by
  funext s
  cases hx : x s with
  | done a s' => rw [bind_done hx, pure_apply]
  | failed e s' => rw [bind_failed hx]
  | exhausted => rw [bind_exhausted hx]

instance : LawfulMonad Parse := .mk' _ bind_pure (fun _ _ => rfl) bind_assoc

/-- Accepting is taking with the token forgotten. -/
theorem accept_bind (p : Token → Bool) (f : Bool → Parse β) :
    accept p >>= f = accept? p >>= fun t => f t.isSome := by
  simp [accept]

/-- A token that has to come is accepted, or its error is raised. -/
theorem expect_bind (p : Token → Bool) (cause : SyntaxError.Cause) (f : Token → Parse β) :
    expect p cause >>= f = accept? p >>= fun t => t.elim (fail cause) f := by
  rw [expect, bind_assoc]
  congr 1
  funext t
  cases t with
  | none => rfl
  | some t => rfl

theorem take?_nil {g : Token → Option α} {s : State} (h : s.tokens = []) :
    take? g s = .done none s := by
  simp [take?, h]

/-- What is made of a token is the answer, and the token is consumed. -/
theorem take?_some {g : Token → Option α} {s : State} {t : Token} {rest : List Token} {a : α}
    (h : s.tokens = t :: rest) (hg : g t = some a) :
    take? g s = .done (some a) { s with tokens := rest } := by
  simp [take?, h, hg]

theorem take?_none {g : Token → Option α} {s : State} (h : ∀ t ∈ s.tokens.head?, g t = none) :
    take? g s = .done none s := by
  cases ht : s.tokens with
  | nil => exact take?_nil ht
  | cons t rest =>
    have hg := h t (by simp [ht])
    simp [take?, ht, hg]

/-- Taking consumes a token and makes something of it, or leaves the state as it is. -/
theorem take?_cases (g : Token → Option α) (s : State) :
    (∃ t rest a, s.tokens = t :: rest ∧ g t = some a ∧
      take? g s = .done (some a) { s with tokens := rest }) ∨ take? g s = .done none s := by
  cases ht : s.tokens with
  | nil => exact .inr (take?_nil ht)
  | cons t rest =>
    cases hg : g t with
    | none => exact .inr (by simp [take?, ht, hg])
    | some a => exact .inl ⟨t, rest, a, rfl, hg, take?_some ht hg⟩

end LoxLang.Parse
