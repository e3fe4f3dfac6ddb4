import LoxLang.Proofs.Store.Distance

namespace LoxLang.Store

variable {st st' st'' : Store} {s t u e a : ScopeId} {name : String}

theorem Linked.enclosing_lt (h : st.Linked) (he : st.enclosing? s = some e) : e < s := by
  obtain ⟨outer, ho⟩ := st.chain_eq_cons e
  have hc := h.chain_of_enclosing he
  rw [ho] at hc
  exact (h s e outer hc).1

/-- Outward, scopes get older. -/
theorem Linked.descending (h : st.Linked) (s : ScopeId) : (st.chain s).Pairwise (· > ·) := by
  -- on the number of the scope, as what is directly around it has a smaller one
  induction s using Nat.strongRecOn with
  | ind s ih =>
    cases he : st.enclosing? s with
    | none =>
      rw [chain_of_enclosing_none he]
      exact List.pairwise_singleton _ _
    | some e =>
      have hlt := h.enclosing_lt he
      obtain ⟨outer, ho⟩ := st.chain_eq_cons e
      have hinner := ih e hlt
      rw [h.chain_of_enclosing he, List.pairwise_cons]
      refine ⟨fun t ht => ?_, hinner⟩
      rw [ho] at ht hinner
      rcases List.mem_cons.1 ht with rfl | ht
      · exact hlt
      · exact Nat.lt_trans ((List.pairwise_cons.1 hinner).1 t ht) hlt

/-- What is around a scope is around all scopes inside. -/
theorem Linked.suffix_of_mem (h : st.Linked) (ht : t ∈ st.chain s) : st.chain t <:+ st.chain s := by
  induction s using Nat.strongRecOn with
  | ind s ih =>
    cases he : st.enclosing? s with
    | none =>
      rw [chain_of_enclosing_none he, List.mem_singleton] at ht
      exact ht ▸ List.suffix_refl _
    | some e =>
      have hc := h.chain_of_enclosing he
      rw [hc] at ht
      rcases List.mem_cons.1 ht with rfl | ht
      · exact List.suffix_refl _
      · rw [hc]
        exact (ih e (h.enclosing_lt he) ht).trans (List.suffix_cons s _)

/-- Of two scopes that are around a third one, one is around the other. -/
theorem Linked.mem_or_mem (h : st.Linked) (hs : s ∈ st.chain u) (ht : t ∈ st.chain u) :
    s ∈ st.chain t ∨ t ∈ st.chain s :=
  (List.suffix_or_suffix_of_suffix (h.suffix_of_mem hs) (h.suffix_of_mem ht)).imp
    (fun hsuffix => hsuffix.subset List.mem_cons_self) fun hsuffix => hsuffix.subset List.mem_cons_self

/-- Of two scopes side by side, neither is around the other. -/
theorem Linked.not_mem_of_enclosing (h : st.Linked) (hne : s ≠ t) (he : st.enclosing? s = st.enclosing? t) :
    s ∉ st.chain t := by
  intro hs
  have hsuffix := h.suffix_of_mem hs
  have hlength : (st.chain s).length = (st.chain t).length := by
    cases hte : st.enclosing? t with
    | none =>
      rw [chain_of_enclosing_none hte, chain_of_enclosing_none (he.trans hte)]
      rfl
    | some e =>
      rw [h.chain_of_enclosing hte, h.chain_of_enclosing (he.trans hte)]
      rfl
  exact hne (List.cons.inj (hsuffix.eq_of_length hlength)).1

/-- Each scope stands inside older ones, the outermost of which is that of the globals. -/
structure Grounded (st : Store) : Prop where
  linked : st.Linked
  last : ∀ s < st.next, (st.chain s).getLast? = some Machine.globals

namespace Grounded

theorem initial : Machine.initial.store.Grounded where
  linked := (Linked.empty.addScope (.inl rfl)).setCell _ _ _
  last := by
    intro s hs
    obtain rfl : s = 0 := Nat.lt_one_iff.1 hs
    rfl

theorem setCell (h : st.Grounded) (s : ScopeId) (name : String) (cell : Cell) : (st.setCell s name cell).Grounded where
  linked := h.linked.setCell s name cell
  last := by
    intro t ht
    rw [next_setCell] at ht
    rw [chain_setCell]
    exact h.last t ht

theorem child (h : st.Grounded) (hs : s < st.next) : (st.child s).2.Grounded where
  linked := h.linked.addScope (.inr ⟨s, hs, rfl⟩)
  last := by
    intro t ht
    unfold Store.child at ht ⊢
    rw [next_addScope] at ht
    rcases Nat.lt_succ_iff_lt_or_eq.1 ht with ht | rfl
    · rw [chain_addScope_of_lt _ ht]
      exact h.last t ht
    · rw [chain_addScope_next, List.getLast?_cons, h.last s hs]
      rfl

theorem globals_mem (h : st.Grounded) (hs : s < st.next) : Machine.globals ∈ st.chain s :=
  List.mem_of_getLast? (h.last s hs)

/-- Nothing is around the globals. -/
theorem chain_globals (h : st.Grounded) : st.chain Machine.globals = [Machine.globals] := by
  cases he : st.enclosing? Machine.globals with
  | none => exact chain_of_enclosing_none he
  | some e => exact absurd (h.linked.enclosing_lt he) (Nat.not_lt_zero e)

end Grounded

/-- All scopes of the first store are where they were, with at least the names they had. -/
structure Older (st st' : Store) : Prop where
  next_le : st.next ≤ st'.next
  chain_eq : ∀ s < st.next, st'.chain s = st.chain s
  has : ∀ s name, st.Has s name → st'.Has s name

namespace Older

theorem refl (st : Store) : st.Older st where
  next_le := Nat.le_refl _
  chain_eq := fun _ _ => rfl
  has := fun _ _ h => h

theorem trans (h : st.Older st') (h' : st'.Older st'') : st.Older st'' where
  next_le := Nat.le_trans h.next_le h'.next_le
  chain_eq := fun s hs => (h'.chain_eq s (Nat.lt_of_lt_of_le hs h.next_le)).trans (h.chain_eq s hs)
  has := fun s name hh => h'.has s name (h.has s name hh)

theorem addScope (st : Store) (outer : List ScopeId) : st.Older (st.addScope outer).2 where
  next_le := by rw [next_addScope]; exact Nat.le_succ _
  chain_eq := fun _ hs => chain_addScope_of_lt outer hs
  has := fun s name h => by simpa [Has] using h

theorem setCell (hs : s < st.next) (name : String) (cell : Cell) : st.Older (st.setCell s name cell) where
  next_le := Nat.le_of_eq (next_setCell s name cell).symm
  chain_eq := fun t _ => chain_setCell s t name cell
  has := fun t other h => (has_setCell hs name cell t other).2 (.inr h)

end Older

end LoxLang.Store
