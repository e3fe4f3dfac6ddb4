import LoxLang.Eval.Machine

namespace LoxLang.Store

variable {st st' st'' : Store} {s t : ScopeId} {name other : String}

def Has (st : Store) (s : ScopeId) (name : String) : Prop := (st.cell? s name).isSome

def Filled (st : Store) (s : ScopeId) (name : String) : Prop := ∃ v, st.cell? s name = some (some v)

theorem Filled.has (h : st.Filled s name) : st.Has s name := by
  obtain ⟨v, hv⟩ := h
  simp [Has, hv]

theorem Has.lt (h : st.Has s name) : s < st.next := by
  unfold Has cell? at h
  by_cases hs : s < st.next
  · exact hs
  · rw [Array.getElem?_eq_none (Nat.le_of_not_lt hs)] at h
    cases h

/-- A cell that is there and is not filled is empty. -/
theorem Has.cell (h : st.Has s name) : st.Filled s name ∨ st.cell? s name = some none := by
  unfold Has at h
  cases hc : st.cell? s name with
  | none => rw [hc] at h; cases h
  | some cell =>
    cases cell with
    | none => exact .inr rfl
    | some v => exact .inl ⟨v, hc⟩

theorem chain_eq_cons (st : Store) (s : ScopeId) : ∃ outer, st.chain s = s :: outer := ⟨_, rfl⟩

theorem cell?_next (st : Store) (name : String) : st.cell? st.next name = none := by
  unfold cell? next
  rw [Array.getElem?_eq_none (Nat.le_refl _)]
  rfl

@[simp]
theorem next_addScope (outer : List ScopeId) : (st.addScope outer).2.next = st.next + 1 := by
  simp [addScope, next]

@[simp]
theorem cell?_addScope (outer : List ScopeId) (s : ScopeId) (name : String) :
    (st.addScope outer).2.cell? s name = st.cell? s name := by
  unfold cell? addScope
  rw [Array.getElem?_push]
  split
  · next h => subst h; simp [NameMap.find?_empty]
  · rfl

/-- To add a scope leaves the ways outward from all others as they are. -/
theorem chain_addScope_of_lt (outer : List ScopeId) (h : s < st.next) :
    (st.addScope outer).2.chain s = st.chain s := by
  unfold chain addScope
  rw [Array.getElem?_push, if_neg (show s ≠ st.scopes.size from Nat.ne_of_lt h)]

theorem chain_addScope_next (outer : List ScopeId) : (st.addScope outer).2.chain st.next = st.next :: outer := by
  simp [chain, addScope, next]

@[simp]
theorem next_setCell (s : ScopeId) (name : String) (cell : Cell) : (st.setCell s name cell).next = st.next := by
  simp [setCell, next]

@[simp]
theorem chain_setCell (s t : ScopeId) (name : String) (cell : Cell) :
    (st.setCell s name cell).chain t = st.chain t := by
  unfold chain setCell
  rw [Array.getElem?_modify]
  split
  · cases st.scopes[t]? <;> rfl
  · rfl

theorem cell?_setCell (hs : s < st.next) (name : String) (cell : Cell) (t : ScopeId) (other : String) :
    (st.setCell s name cell).cell? t other =
      if s = t ∧ name = other then some cell else st.cell? t other := by
  unfold cell? setCell
  rw [Array.getElem?_modify]
  by_cases ht : s = t
  · subst ht
    obtain ⟨scope, hsc⟩ : ∃ scope, st.scopes[s]? = some scope := ⟨_, Array.getElem?_eq_getElem hs⟩
    by_cases hn : name = other <;> simp [hsc, hn]
  · simp [ht]

theorem has_setCell (hs : s < st.next) (name : String) (cell : Cell) (t : ScopeId) (other : String) :
    (st.setCell s name cell).Has t other ↔ (s = t ∧ name = other) ∨ st.Has t other := by
  unfold Has
  rw [cell?_setCell hs]
  split <;> simp [*]

theorem filled_define (hs : s < st.next) (name : String) (v : Value) (t : ScopeId) (other : String) :
    (st.define s name v).Filled t other ↔ (s = t ∧ name = other) ∨ st.Filled t other := by
  unfold Filled define
  rw [cell?_setCell hs]
  split <;> simp [*]

/-- The first declaration of a name takes no value away. -/
theorem filled_declare_of_not_has (hs : s < st.next) (h : ¬st.Has s name) (t : ScopeId) (other : String) :
    (st.declare s name).Filled t other ↔ st.Filled t other := by
  unfold Filled declare
  rw [cell?_setCell hs]
  split
  · next he =>
    obtain ⟨rfl, rfl⟩ := he
    refine ⟨fun hv => ?_, fun hv => absurd (Filled.has hv) h⟩
    obtain ⟨v, hv⟩ := hv
    cases hv
  · rfl

/-- What a part of a run does to scopes, where `current` is the one that may get names. Cells of globals may be
emptied again, by another declaration; those of local scopes stay filled. -/
structure Grows (current : Option ScopeId) (st st' : Store) : Prop where
  next_le : st.next ≤ st'.next
  chain_eq : ∀ s, s < st.next → st'.chain s = st.chain s
  has : ∀ s name, st.Has s name → st'.Has s name
  no_more : ∀ s name, s < st.next → some s ≠ current → st'.Has s name → st.Has s name
  filled : ∀ s name, s ≠ Machine.globals → st.Filled s name → st'.Filled s name

namespace Grows

variable {current : Option ScopeId}

theorem refl (current : Option ScopeId) (st : Store) : Grows current st st where
  next_le := Nat.le_refl _
  chain_eq := fun _ _ => rfl
  has := fun _ _ h => h
  no_more := fun _ _ _ _ h => h
  filled := fun _ _ _ h => h

/-- Parts of a run one after the other, with the same current scope. -/
theorem trans (h : Grows current st st') (h' : Grows current st' st'') : Grows current st st'' where
  next_le := Nat.le_trans h.next_le h'.next_le
  chain_eq := fun s hs => (h'.chain_eq s (Nat.lt_of_lt_of_le hs h.next_le)).trans (h.chain_eq s hs)
  has := fun s name hh => h'.has s name (h.has s name hh)
  no_more := fun s name hs hc hh =>
    h.no_more s name hs hc (h'.no_more s name (Nat.lt_of_lt_of_le hs h.next_le) hc hh)
  filled := fun s name hg hf => h'.filled s name hg (h.filled s name hg hf)

/-- Where no scope that was there gets a name, the current one may as well. -/
theorem widen (h : Grows none st st') : Grows current st st' where
  next_le := h.next_le
  chain_eq := h.chain_eq
  has := h.has
  no_more := fun s name hs _ => h.no_more s name hs nofun
  filled := h.filled

/-- A scope that was not there may get all the names it wants. -/
theorem inside (h : Grows none st st') (hs : st.next ≤ s) (h' : Grows (some s) st' st'') : Grows none st st'' where
  next_le := Nat.le_trans h.next_le h'.next_le
  chain_eq := fun t ht => (h'.chain_eq t (Nat.lt_of_lt_of_le ht h.next_le)).trans (h.chain_eq t ht)
  has := fun t name hh => h'.has t name (h.has t name hh)
  no_more := by
    intro t name ht _ hh
    refine h.no_more t name ht nofun (h'.no_more t name (Nat.lt_of_lt_of_le ht h.next_le) ?_ hh)
    rintro ⟨⟩
    exact Nat.lt_irrefl _ (Nat.lt_of_lt_of_le ht hs)
  filled := fun t name hg hf => h'.filled t name hg (h.filled t name hg hf)

theorem addScope (current : Option ScopeId) (st : Store) (outer : List ScopeId) :
    Grows current st (st.addScope outer).2 where
  next_le := by rw [next_addScope]; exact Nat.le_succ _
  chain_eq := fun s hs => chain_addScope_of_lt outer hs
  has := fun s name h => by simpa [Has] using h
  no_more := fun s name _ _ h => by simpa [Has] using h
  filled := fun s name _ h => by simpa [Filled] using h

/-- A name defined in the current scope. -/
theorem define_current (hs : s < st.next) (name : String) (v : Value) :
    Grows (some s) st (st.define s name v) where
  next_le := by simp [define]
  chain_eq := fun t _ => chain_setCell s t name _
  has := fun t other h => (has_setCell hs name _ t other).2 (.inr h)
  no_more := by
    intro t other _ hc h
    rcases (has_setCell hs name _ t other).1 h with ⟨rfl, -⟩ | h
    · exact absurd rfl hc
    · exact h
  filled := fun t other _ h => (filled_define hs name v t other).2 (.inr h)

/-- A cell that is there filled. -/
theorem define_of_has (h : st.Has s name) (v : Value) : Grows current st (st.define s name v) where
  next_le := by simp [define]
  chain_eq := fun t _ => chain_setCell s t name _
  has := fun t other hh => (has_setCell h.lt name _ t other).2 (.inr hh)
  no_more := by
    intro t other _ _ hh
    rcases (has_setCell h.lt name _ t other).1 hh with ⟨rfl, rfl⟩ | hh
    · exact h
    · exact hh
  filled := fun t other _ hf => (filled_define h.lt name v t other).2 (.inr hf)

/-- A name declared in the current scope for the first time, unless it is a global one. -/
theorem declare_current (hs : s < st.next) (hn : s ≠ Machine.globals → ¬st.Has s name) :
    Grows (some s) st (st.declare s name) where
  next_le := by simp [declare]
  chain_eq := fun t _ => chain_setCell s t name _
  has := fun t other h => (has_setCell hs name _ t other).2 (.inr h)
  no_more := by
    intro t other _ hc h
    rcases (has_setCell hs name _ t other).1 h with ⟨rfl, -⟩ | h
    · exact absurd rfl hc
    · exact h
  filled := by
    intro t other ht h
    by_cases hg : s = Machine.globals
    · subst hg
      obtain ⟨v, hv⟩ := h
      refine ⟨v, ?_⟩
      unfold declare
      rw [cell?_setCell hs, if_neg fun he => ht he.1.symm]
      exact hv
    · exact (filled_declare_of_not_has hs (hn hg) t other).2 h

end Grows

end LoxLang.Store
