import LoxLang.Proofs.Run.Scopes
import LoxLang.Proofs.Scope.Receivers

namespace LoxLang.Store

/-- The scope binds one name, `this`, to the value told. -/
def Hides (st : Store) (s : ScopeId) (object : Value) : Prop :=
  ∀ name, st.cell? s name = if name = "this" then some (some object) else none

/-- Which of the scopes from one outward bind `this`. -/
def shape (st : Store) (s : ScopeId) : Shape := (st.chain s).map fun t => (st.cell? t "this").isSome

/-- What the nearest `this` is, walking outward. -/
def receiver? (st : Store) (s : ScopeId) : Option Value := (st.chain s).findSome? fun t => st.getHere? t "this"

/-- The scope and those around it are there, and those that the shape tells bind `this`. -/
structure Shaped (st : Store) (s : ScopeId) (shape : Shape) : Prop where
  exist : ∀ t ∈ st.chain s, t < st.next
  shape_eq : st.shape s = shape

/-- What a run does to a store. No scope that was there gets a `this`, and one that has it stays as it is. -/
structure Keeps (st st' : Store) : Prop where
  next_le : st.next ≤ st'.next
  chain_eq : ∀ s, s < st.next → st'.chain s = st.chain s
  this_eq : ∀ s, s < st.next → st'.cell? s "this" = st.cell? s "this"
  hidden_eq : ∀ s, st.Has s "this" → ∀ name, st'.cell? s name = st.cell? s name

variable {st st' st'' : Store} {s : ScopeId} {name : String} {object : Value} {shape : Shape}

namespace Hides

theorem has (h : st.Hides s object) : st.Has s "this" := by
  unfold Has
  rw [h "this", if_pos rfl]
  rfl

theorem getHere? (h : st.Hides s object) : st.getHere? s "this" = some object := by
  unfold Store.getHere?
  rw [h "this", if_pos rfl]
  rfl

/-- A scope around methods stays as it is, whatever else becomes of the store. -/
theorem keeps (h : st.Hides s object) (hk : st.Keeps st') : st'.Hides s object := by
  intro name
  rw [hk.hidden_eq s h.has name]
  exact h name

/-- Directly inside, its `this` is the nearest. -/
theorem receiver? (h : st.Hides s object) : st.receiver? s = some object := by
  obtain ⟨outer, ho⟩ := st.chain_eq_cons s
  unfold Store.receiver?
  rw [ho, List.findSome?_cons, h.getHere?]

end Hides

namespace Keeps

theorem refl (st : Store) : st.Keeps st where
  next_le := Nat.le_refl _
  chain_eq := fun _ _ => rfl
  this_eq := fun _ _ => rfl
  hidden_eq := fun _ _ _ => rfl

theorem trans (h : st.Keeps st') (h' : st'.Keeps st'') : st.Keeps st'' where
  next_le := Nat.le_trans h.next_le h'.next_le
  chain_eq := fun s hs => (h'.chain_eq s (Nat.lt_of_lt_of_le hs h.next_le)).trans (h.chain_eq s hs)
  this_eq := fun s hs => (h'.this_eq s (Nat.lt_of_lt_of_le hs h.next_le)).trans (h.this_eq s hs)
  hidden_eq := by
    intro s hs name
    have hs' : st'.Has s "this" := by
      unfold Has
      rw [h.this_eq s hs.lt]
      exact hs
    exact (h'.hidden_eq s hs' name).trans (h.hidden_eq s hs name)

theorem addScope (st : Store) (outer : List ScopeId) : st.Keeps (st.addScope outer).2 where
  next_le := by rw [next_addScope]; exact Nat.le_succ _
  chain_eq := fun s hs => chain_addScope_of_lt outer hs
  this_eq := fun s _ => cell?_addScope outer s "this"
  hidden_eq := fun s _ name => cell?_addScope outer s name

/-- A cell of another name, in a scope that is not around methods. -/
theorem setCell (hs : s < st.next) (hn : name ≠ "this") (hh : ¬st.Has s "this") (cell : Cell) :
    st.Keeps (st.setCell s name cell) where
  next_le := by simp
  chain_eq := fun t _ => chain_setCell s t name cell
  this_eq := by
    intro t _
    rw [cell?_setCell hs, if_neg fun he => hn he.2]
  hidden_eq := by
    intro t ht other
    rw [cell?_setCell hs, if_neg]
    rintro ⟨rfl, -⟩
    exact hh ht

/-- A cell in a scope that was not there. -/
theorem setCell_new (h : st.Keeps st') (hs : st.next ≤ s) (hs' : s < st'.next) (name : String) (cell : Cell) :
    st.Keeps (st'.setCell s name cell) := by
  have other : ∀ t, t < st.next → ∀ x, (st'.setCell s name cell).cell? t x = st'.cell? t x := by
    intro t ht x
    have hne : s ≠ t := (Nat.ne_of_lt (Nat.lt_of_lt_of_le ht hs)).symm
    rw [cell?_setCell hs', if_neg fun he => hne he.1]
  constructor
  case next_le => simpa using h.next_le
  case chain_eq => exact fun t ht => (chain_setCell s t name cell).trans (h.chain_eq t ht)
  case this_eq => exact fun t ht => (other t ht "this").trans (h.this_eq t ht)
  case hidden_eq => exact fun t ht x => (other t ht.lt x).trans (h.hidden_eq t ht x)

theorem not_has (h : st.Keeps st') (hs : s < st.next) (hh : ¬st.Has s "this") : ¬st'.Has s "this" := by
  unfold Has at hh ⊢
  rwa [h.this_eq s hs]

/-- The nearest receiver stays the same, since no scope between gets a `this`. -/
theorem receiver?_eq (h : st.Keeps st') (hs : ∀ t ∈ st.chain s, t < st.next) :
    st'.receiver? s = st.receiver? s := by
  have hlt : s < st.next := hs s List.mem_cons_self
  unfold receiver?
  rw [h.chain_eq s hlt]
  generalize st.chain s = chain at hs
  induction chain with
  | nil => rfl
  | cons t chain ih =>
    have ht : st'.getHere? t "this" = st.getHere? t "this" := by
      unfold Store.getHere?
      rw [h.this_eq t (hs t List.mem_cons_self)]
    rw [List.findSome?_cons, List.findSome?_cons, ht, ih fun u hu => hs u (List.mem_cons_of_mem t hu)]

end Keeps

namespace Shaped

theorem lt (h : st.Shaped s shape) : s < st.next := h.exist s List.mem_cons_self

theorem keeps (h : st.Shaped s shape) (hk : st.Keeps st') : st'.Shaped s shape where
  exist := by
    rw [hk.chain_eq s h.lt]
    exact fun t ht => Nat.lt_of_lt_of_le (h.exist t ht) hk.next_le
  shape_eq := by
    rw [← h.shape_eq]
    unfold Store.shape
    rw [hk.chain_eq s h.lt]
    refine List.map_congr_left fun t ht => ?_
    rw [hk.this_eq t (h.exist t ht)]

theorem not_has (h : st.Shaped s (false :: shape)) : ¬st.Has s "this" := by
  have hs := h.shape_eq
  obtain ⟨outer, ho⟩ := st.chain_eq_cons s
  unfold Store.shape at hs
  rw [ho, List.map_cons, List.cons.injEq] at hs
  simp [Has, hs.1]

/-- A new scope directly inside. -/
theorem inside (h : st.Shaped s shape) (hk : st.Keeps st') (hn : st.next < st'.next)
    (hc : st'.chain st.next = st.next :: st.chain s) :
    st'.Shaped st.next ((st'.cell? st.next "this").isSome :: shape) where
  exist := by
    rw [hc]
    intro t ht
    rcases List.mem_cons.1 ht with rfl | ht
    · exact hn
    · exact Nat.lt_of_lt_of_le (h.exist t ht) hk.next_le
  shape_eq := by
    have hs := (h.keeps hk).shape_eq
    unfold Store.shape at hs ⊢
    rw [hk.chain_eq s h.lt] at hs
    rw [hc, List.map_cons, hs]

/-- A scope for a block or a call binds no `this`. -/
theorem child (h : st.Shaped s shape) : (st.child s).2.Shaped st.next (false :: shape) := by
  have hin := h.inside (.addScope st (st.chain s)) (by simp) (chain_addScope_next _)
  rwa [cell?_addScope, cell?_next] at hin

end Shaped

/-- Nothing is in the way from a new scope outward. -/
theorem receiver?_child (st : Store) (s : ScopeId) (hs : ∀ t ∈ st.chain s, t < st.next) :
    (st.child s).2.receiver? st.next = st.receiver? s := by
  have hnew : (st.child s).2.getHere? st.next "this" = none := by
    unfold getHere? child
    rw [cell?_addScope, cell?_next]
    rfl
  have hin : (st.child s).2.chain st.next = st.next :: st.chain s := chain_addScope_next _
  have hout : (st.child s).2.chain s = st.chain s := chain_addScope_of_lt _ (hs s List.mem_cons_self)
  rw [← Keeps.receiver?_eq (.addScope st (st.chain s)) hs]
  change (st.child s).2.receiver? st.next = (st.child s).2.receiver? s
  unfold receiver?
  rw [hin, hout, List.findSome?_cons, hnew]

/-- A new scope directly inside, around methods. -/
def addThis (st : Store) (s : ScopeId) (object : Value) : Store := (st.child s).2.define st.next "this" object

section

variable (st s object)

theorem next_addThis : (st.addThis s object).next = st.next + 1 := by
  simp [addThis, define, child]

theorem cell?_addThis (t : ScopeId) (name : String) :
    (st.addThis s object).cell? t name =
      if st.next = t ∧ name = "this" then some (some object) else st.cell? t name := by
  have hlt : st.next < (st.child s).2.next := by simp [child]
  rw [addThis, define, cell?_setCell hlt, child, cell?_addScope]
  simp only [eq_comm]

theorem addThis_hides : (st.addThis s object).Hides st.next object := by
  intro name
  rw [cell?_addThis, cell?_next]
  simp

theorem keeps_addThis : st.Keeps (st.addThis s object) :=
  .setCell_new (.addScope st (st.chain s)) (Nat.le_refl _) (by simp) "this" (some object)

end

theorem Shaped.addThis (h : st.Shaped s shape) (object : Value) :
    (st.addThis s object).Shaped st.next (true :: shape) := by
  have hc : (st.addThis s object).chain st.next = st.next :: st.chain s :=
    (chain_setCell _ _ _ _).trans (chain_addScope_next _)
  have hin := h.inside (st.keeps_addThis s object) (by simp [next_addThis]) hc
  rwa [st.addThis_hides s object "this"] at hin

/-- Without a scope around methods there is no receiver. -/
theorem Shaped.receiver?_eq_none (h : st.Shaped s shape) (hs : true ∉ shape) : st.receiver? s = none := by
  unfold receiver?
  rw [List.findSome?_eq_none_iff]
  intro t ht
  have hmem : (st.cell? t "this").isSome ∈ shape := h.shape_eq ▸ List.mem_map_of_mem ht
  unfold getHere?
  cases hc : st.cell? t "this" with
  | none => rfl
  | some cell =>
    rw [hc] at hmem
    exact absurd hmem hs

/-- The distance of the nearest scope around methods leads to the receiver. -/
theorem receiver?_of_findIdx? {d : Nat} (hd : (st.shape s).findIdx? (·) = some d) :
    ∃ t, st.ancestor? s d = some t ∧ st.Has t "this" ∧
      ∀ object, st.getHere? t "this" = some object → st.receiver? s = some object := by
  unfold shape at hd
  unfold ancestor? receiver?
  generalize st.chain s = chain at hd
  induction chain generalizing d with
  | nil => cases hd
  | cons u chain ih =>
    rw [List.map_cons, List.findIdx?_cons] at hd
    cases hu : st.cell? u "this" with
    | none =>
      simp only [hu, Option.isSome_none, Bool.false_eq_true, if_false] at hd
      obtain ⟨e, he, rfl⟩ := Option.map_eq_some_iff.1 hd
      obtain ⟨t, ht, hh, hx⟩ := ih he
      refine ⟨t, ht, hh, fun object hobject => ?_⟩
      have hnone : st.getHere? u "this" = none := by
        unfold getHere?
        rw [hu]
        rfl
      rw [List.findSome?_cons, hnone]
      exact hx object hobject
    | some cell =>
      simp only [hu, Option.isSome_some, if_true, Option.some.injEq] at hd
      subst hd
      refine ⟨u, rfl, by simp [Has, hu], fun object hobject => ?_⟩
      rw [List.findSome?_cons, hobject]

end LoxLang.Store
