import LoxLang.Proofs.Run.Steps

namespace LoxLang.Store

variable {st st' : Store} {s t a e : ScopeId} {name : String} {d : Nat} {v : Value}

/-- The scope directly around another. -/
def enclosing? (st : Store) (s : ScopeId) : Option ScopeId := (st.chain s).tail.head?

/-- The scopes that operations build from nothing. -/
inductive Built : Store → Prop
  | empty : Built .empty
  | root {st : Store} (h : Built st) : Built st.root.2
  | child {st : Store} {s : ScopeId} (h : Built st) (hs : s < st.next) : Built (st.child s).2
  | define {st : Store} {s : ScopeId} (h : Built st) (hs : s < st.next) (name : String) (v : Value) :
    Built (st.define s name v)
  | declare {st : Store} {s : ScopeId} (h : Built st) (hs : s < st.next) (name : String) : Built (st.declare s name)
  | assign {st st' : Store} {s : ScopeId} {name : String} {v : Value} (h : Built st) (hs : s < st.next)
    (ha : st.assign s name v = .ok st') : Built st'
  | assignAt {st st' : Store} {s : ScopeId} {d : Nat} {name : String} {v : Value} (h : Built st) (hs : s < st.next)
    (ha : st.assignAt s d name v = .ok st') : Built st'

/-- What is around a scope is the scope directly around it, which was made before, and what is around that. -/
def Linked (st : Store) : Prop := ∀ s e outer, st.chain s = s :: e :: outer → e < s ∧ st.chain e = e :: outer

/-- A scope that is not there has nothing around it. -/
theorem chain_of_next_le (h : st.next ≤ s) : st.chain s = [s] := by
  simp [chain, Array.getElem?_eq_none (show st.scopes.size ≤ s from h)]

namespace Linked

theorem empty : Linked .empty := by
  intro s e outer h
  have halone : Store.empty.chain s = [s] := chain_of_next_le (Nat.zero_le s)
  simp [halone] at h

/-- Cells have nothing to do with what is around a scope. -/
theorem setCell (h : st.Linked) (s : ScopeId) (name : String) (cell : Cell) : (st.setCell s name cell).Linked := by
  intro t e outer ht
  simp only [chain_setCell] at ht ⊢
  exact h t e outer ht

/-- A new scope stands inside one that there is, or inside none. -/
theorem addScope (h : st.Linked) {around : List ScopeId}
    (ha : around = [] ∨ ∃ s < st.next, around = st.chain s) : (st.addScope around).2.Linked := by
  intro t e outer ht
  rcases Nat.lt_trichotomy t st.next with hlt | rfl | hgt
  · rw [chain_addScope_of_lt around hlt] at ht
    obtain ⟨he, hc⟩ := h t e outer ht
    exact ⟨he, (chain_addScope_of_lt around (Nat.lt_trans he hlt)).trans hc⟩
  · simp only [chain_addScope_next, List.cons.injEq, true_and] at ht
    rcases ha with rfl | ⟨s, hs, rfl⟩
    · simp at ht
    · obtain ⟨further, hf⟩ := st.chain_eq_cons s
      simp only [hf, List.cons.injEq] at ht
      obtain ⟨rfl, rfl⟩ := ht
      exact ⟨hs, (chain_addScope_of_lt _ hs).trans hf⟩
  · have hle : (st.addScope around).2.next ≤ t := by
      rw [next_addScope]
      exact hgt
    simp [chain_of_next_le hle] at ht

end Linked

/-- An assignment fills the cell that it finds. -/
theorem define_of_assign (h : st.assign s name v = .ok st') :
    ∃ a, st.holder s name = .ok a ∧ st' = st.define a name v := by
  unfold assign at h
  cases ha : st.holder s name with
  | error e => simp [ha, bind, Except.bind] at h
  | ok a =>
    simp only [ha, bind, Except.bind, pure, Except.pure, Except.ok.injEq] at h
    exact ⟨a, rfl, h.symm⟩

theorem define_of_assignAt (h : st.assignAt s d name v = .ok st') :
    ∃ a, st.holderAt s d name = .ok a ∧ st' = st.define a name v := by
  unfold assignAt at h
  cases ha : st.holderAt s d name with
  | error e => simp [ha, bind, Except.bind] at h
  | ok a =>
    simp only [ha, bind, Except.bind, pure, Except.pure, Except.ok.injEq] at h
    exact ⟨a, rfl, h.symm⟩

theorem Built.linked (h : st.Built) : st.Linked := by
  induction h with
  | empty => exact .empty
  | root h ih => exact ih.addScope (.inl rfl)
  | child h hs ih => exact ih.addScope (.inr ⟨_, hs, rfl⟩)
  | define h hs name v ih => exact ih.setCell _ name _
  | declare h hs name ih => exact ih.setCell _ name _
  | assign h hs ha ih =>
    obtain ⟨a, -, rfl⟩ := define_of_assign ha
    exact ih.setCell a _ _
  | assignAt h hs ha ih =>
    obtain ⟨a, -, rfl⟩ := define_of_assignAt ha
    exact ih.setCell a _ _

/-- The scopes around one whose enclosing scope is known. -/
theorem Linked.chain_of_enclosing (h : st.Linked) (he : st.enclosing? s = some e) : st.chain s = s :: st.chain e := by
  obtain ⟨outer, hc⟩ := st.chain_eq_cons s
  simp only [enclosing?, hc, List.tail_cons, List.head?_eq_some_iff] at he
  obtain ⟨further, rfl⟩ := he
  rw [hc, (h s e further hc).2]

theorem chain_of_enclosing_none (he : st.enclosing? s = none) : st.chain s = [s] := by
  obtain ⟨outer, hc⟩ := st.chain_eq_cons s
  simp only [enclosing?, hc, List.tail_cons, List.head?_eq_none_iff] at he
  rw [hc, he]

/-- Each hop goes to the scope directly around. -/
theorem Linked.ancestor?_succ (h : st.Linked) (s : ScopeId) (d : Nat) :
    st.ancestor? s (d + 1) = (st.enclosing? s).bind (st.ancestor? · d) := by
  cases he : st.enclosing? s with
  | none => simp [ancestor?, chain_of_enclosing_none he]
  | some e => simp [ancestor?, h.chain_of_enclosing he]

/-- The walk stays where the name is, with or without a value, and goes to the scope directly around otherwise. -/
theorem Linked.holder_step (h : st.Linked) (s : ScopeId) (name : String) :
    st.holder s name =
      if (st.cell? s name).isSome then .ok s
      else (st.enclosing? s).elim (.error .undefined) (st.holder · name) := by
  by_cases hs : (st.cell? s name).isSome = true
  · rw [if_pos hs]
    exact holder_of_has hs
  · rw [if_neg hs]
    cases he : st.enclosing? s with
    | none => simp [holder, chain_of_enclosing_none he, nearest?, hs]
    | some e => simp [holder, h.chain_of_enclosing he, nearest?, hs]

/-- A read goes the same way, and ends at an empty cell. -/
theorem Linked.get_step (h : st.Linked) (s : ScopeId) (name : String) :
    st.get s name =
      if (st.cell? s name).isSome then readCell (st.cell? s name)
      else (st.enclosing? s).elim (.error .undefined) (st.get · name) := by
  simp only [get]
  rw [h.holder_step]
  split
  · rfl
  · cases st.enclosing? s <;> rfl

/-- And so does an assignment. -/
theorem Linked.assign_step (h : st.Linked) (s : ScopeId) (name : String) (v : Value) :
    st.assign s name v =
      if (st.cell? s name).isSome then .ok (st.define s name v)
      else (st.enclosing? s).elim (.error .undefined) (st.assign · name v) := by
  simp only [assign]
  rw [h.holder_step]
  split
  · rfl
  · cases st.enclosing? s <;> rfl

instance : Decidable (st.Has s name) := inferInstanceAs (Decidable (_ = true))

/-- Some hops outward is the nearest scope that holds the name. -/
structure HeldAt (st : Store) (s : ScopeId) (name : String) (d : Nat) (a : ScopeId) : Prop where
  ancestor : st.ancestor? s d = some a
  has : st.Has a name
  least : ∀ d' < d, ∀ a', st.ancestor? s d' = some a' → ¬st.Has a' name

/-- Nowhere outward is the name held. -/
def Unheld (st : Store) (s : ScopeId) (name : String) : Prop := ∀ d a, st.ancestor? s d = some a → ¬st.Has a name

/-- The walk passes over the scopes that do not have the name. -/
theorem nearest?_of_least {scopes : List ScopeId} (hd : scopes[d]? = some a) (ha : st.Has a name)
    (hleast : ∀ d' < d, ∀ a', scopes[d']? = some a' → ¬st.Has a' name) : st.nearest? name scopes = some a := by
  induction scopes generalizing d with
  | nil => simp at hd
  | cons s outer ih =>
    cases d with
    | zero =>
      obtain rfl : s = a := by simpa using hd
      exact if_pos ha
    | succ d =>
      have hs : ¬(st.cell? s name).isSome = true := hleast 0 (Nat.succ_pos d) s rfl
      rw [nearest?, if_neg hs]
      exact ih hd fun d' hd' a' => hleast (d' + 1) (Nat.succ_lt_succ hd') a'

theorem nearest?_eq_none {scopes : List ScopeId} (h : ∀ a ∈ scopes, ¬st.Has a name) :
    st.nearest? name scopes = none := by
  induction scopes with
  | nil => rfl
  | cons s outer ih =>
    have hs : ¬(st.cell? s name).isSome = true := h s List.mem_cons_self
    rw [nearest?, if_neg hs]
    exact ih fun a ha => h a (List.mem_cons_of_mem s ha)

theorem HeldAt.holder (h : st.HeldAt s name d a) : st.holder s name = .ok a := by
  simp [Store.holder, nearest?_of_least h.ancestor h.has h.least]

theorem HeldAt.holderAt (h : st.HeldAt s name d a) : st.holderAt s d name = .ok a := holderAt_of_has h.ancestor h.has

theorem Unheld.holder (h : st.Unheld s name) : st.holder s name = .error .undefined := by
  have hnone : st.nearest? name (st.chain s) = none := by
    refine nearest?_eq_none fun a ha => ?_
    obtain ⟨d, hd⟩ := List.getElem?_of_mem ha
    exact h d a hd
  simp [Store.holder, hnone]

theorem Unheld.holderAt (h : st.Unheld s name) (d : Nat) : st.holderAt s d name = .error .undefined := by
  unfold Store.holderAt
  cases ha : st.ancestor? s d with
  | none => rfl
  | some a => exact if_neg (h d a ha)

/-- The second store is the first with one cell filled. -/
structure FilledAt (st st' : Store) (a : ScopeId) (name : String) (v : Value) : Prop where
  next : st'.next = st.next
  chain : ∀ t, st'.chain t = st.chain t
  filled : st'.cell? a name = some (some v)
  others : ∀ t other, ¬(t = a ∧ other = name) → st'.cell? t other = st.cell? t other

theorem Has.filledAt (h : st.Has a name) (v : Value) : st.FilledAt (st.define a name v) a name v where
  next := next_setCell a name _
  chain := fun t => chain_setCell a t name _
  filled := by simp [Store.define, cell?_setCell h.lt]
  others := by
    intro t other hne
    have hne' : ¬(a = t ∧ name = other) := fun he => hne ⟨he.1.symm, he.2.symm⟩
    simp [Store.define, cell?_setCell h.lt, hne']

end Store

namespace Eval

variable {m : Machine} {name : Token} {v : Value}

/-- A failed access names the variable and its line, and changes nothing. -/
theorem access_undefined {f : Store → Except AccessError Value} (h : f m.store = .error .undefined) :
    access f name m = .failed ⟨.undefinedVariable name.lexeme, name.line⟩ m := by
  simp [access, h, AccessError.cause]

theorem assign_undefined {f : Store → Except AccessError ScopeId} (h : f m.store = .error .undefined) :
    assign f name v m = .failed ⟨.undefinedVariable name.lexeme, name.line⟩ m := by
  simp [assign, h, AccessError.cause]

theorem assign_of_ok {f : Store → Except AccessError ScopeId} {a : ScopeId} (h : f m.store = .ok a) :
    assign f name v m = .done () { m with store := m.store.define a name.lexeme v } := by
  simp [assign, h]

end Eval

namespace Store

/-- Access by distance and the walk outward. Hops and the walk go along the scopes directly around one another. At the
least distance at which a name is held both ways come to one cell: they read the same, or fail alike, and an assignment
fills that cell and changes no other. Where no scope around holds the name, they fail with one error at every distance
and leave all as it is. -/
theorem Built.distance_agrees_with_walk {m : Machine} (h : m.store.Built) (s : ScopeId) (name : Token) :
    (m.store.ancestor? s 0 = some s ∧
      ∀ d, m.store.ancestor? s (d + 1) = (m.store.enclosing? s).bind (m.store.ancestor? · d)) ∧
    (m.store.get s name.lexeme =
        if (m.store.cell? s name.lexeme).isSome then readCell (m.store.cell? s name.lexeme)
        else (m.store.enclosing? s).elim (.error .undefined) (m.store.get · name.lexeme)) ∧
    (∀ v, m.store.assign s name.lexeme v =
        if (m.store.cell? s name.lexeme).isSome then .ok (m.store.define s name.lexeme v)
        else (m.store.enclosing? s).elim (.error .undefined) (m.store.assign · name.lexeme v)) ∧
    (∀ d a, m.store.HeldAt s name.lexeme d a →
      m.store.getAt s d name.lexeme = m.store.get s name.lexeme ∧
      Eval.access (·.getAt s d name.lexeme) name m = Eval.access (·.get s name.lexeme) name m ∧
      ∀ v, ∃ st, m.store.FilledAt st a name.lexeme v ∧
        m.store.assign s name.lexeme v = .ok st ∧ m.store.assignAt s d name.lexeme v = .ok st ∧
        Eval.assign (·.holder s name.lexeme) name v m = .done () { m with store := st } ∧
        Eval.assign (·.holderAt s d name.lexeme) name v m = .done () { m with store := st }) ∧
    (m.store.Unheld s name.lexeme →
      Eval.access (·.get s name.lexeme) name m = .failed ⟨.undefinedVariable name.lexeme, name.line⟩ m ∧
      (∀ v, m.store.assign s name.lexeme v = .error .undefined ∧
        Eval.assign (·.holder s name.lexeme) name v m = .failed ⟨.undefinedVariable name.lexeme, name.line⟩ m) ∧
      ∀ d, Eval.access (·.getAt s d name.lexeme) name m = .failed ⟨.undefinedVariable name.lexeme, name.line⟩ m ∧
        ∀ v, m.store.assignAt s d name.lexeme v = .error .undefined ∧
          Eval.assign (·.holderAt s d name.lexeme) name v m =
            .failed ⟨.undefinedVariable name.lexeme, name.line⟩ m) := by
  have hlinked := h.linked
  refine ⟨⟨rfl, hlinked.ancestor?_succ s⟩, hlinked.get_step s _, hlinked.assign_step s _, fun d a hheld => ?_,
    fun hnone => ?_⟩
  · have hget : m.store.getAt s d name.lexeme = m.store.get s name.lexeme := by
      simp [getAt, get, hheld.holder, hheld.holderAt]
    refine ⟨hget, by simp only [Eval.access, hget], fun v => ?_⟩
    refine ⟨m.store.define a name.lexeme v, hheld.has.filledAt v, ?_, ?_, ?_, ?_⟩
    · simp [Store.assign, hheld.holder, bind, Except.bind, pure, Except.pure]
    · simp [Store.assignAt, hheld.holderAt, bind, Except.bind, pure, Except.pure]
    · exact Eval.assign_of_ok hheld.holder
    · exact Eval.assign_of_ok hheld.holderAt
  · refine ⟨Eval.access_undefined ?_, fun v => ⟨?_, Eval.assign_undefined hnone.holder⟩, fun d =>
      ⟨Eval.access_undefined ?_, fun v => ⟨?_, Eval.assign_undefined (hnone.holderAt d)⟩⟩⟩
    · simp [get, hnone.holder, bind, Except.bind]
    · simp [Store.assign, hnone.holder, bind, Except.bind]
    · simp [getAt, hnone.holderAt d, bind, Except.bind]
    · simp [Store.assignAt, hnone.holderAt d, bind, Except.bind]

/-- Three scopes, one inside the other. The outermost has a value for a name, the middle one an empty cell. -/
def shadowed : Store :=
  let outer := empty.root.2.define 0 "a" .nil
  let middle := (outer.child 0).2.declare 1 "a"
  (middle.child 1).2

theorem shadowed_built : shadowed.Built :=
  .child (.declare (.child (.define (.root .empty) (by decide) "a" .nil) (by decide)) (by decide) "a") (by decide)

/-- The empty cell ends the walk, and is the one that is filled. -/
theorem empty_cell_ends_walk :
    let m := { Machine.initial with store := shadowed }
    m.store.Built ∧ m.store.HeldAt 2 "a" 1 1 ∧
      m.store.get 2 "a" = .error .uninitialized ∧ m.store.getAt 2 1 "a" = .error .uninitialized ∧
      ∃ st, m.store.assign 2 "a" (.bool true) = .ok st ∧ m.store.assignAt 2 1 "a" (.bool true) = .ok st ∧
        st.cell? 1 "a" = some (some (.bool true)) ∧ st.cell? 0 "a" = some (some .nil) ∧
        Eval.access (·.getAt 2 7 "b") ⟨.identifier, "b", 3⟩ m = .failed ⟨.undefinedVariable "b", 3⟩ m := by
  intro m
  have hheld : m.store.HeldAt 2 "a" 1 1 := by
    refine ⟨rfl, rfl, fun d' hd' a' ha' => ?_⟩
    obtain rfl : d' = 0 := by omega
    cases ha'
    decide
  have hnone : m.store.Unheld 2 "b" := by
    intro d a ha
    have hmem : a ∈ [2, 1, 0] := List.mem_of_getElem? ha
    simp only [List.mem_cons, List.not_mem_nil, or_false] at hmem
    rcases hmem with rfl | rfl | rfl <;> decide
  obtain ⟨-, -, -, hsame, -⟩ := Built.distance_agrees_with_walk (m := m) shadowed_built 2 ⟨.identifier, "a", 1⟩
  obtain ⟨hget, -, hassign⟩ := hsame 1 1 hheld
  obtain ⟨st, hfilled, hwalk, hdistance, -⟩ := hassign (.bool true)
  obtain ⟨-, -, -, -, hundefined⟩ := Built.distance_agrees_with_walk (m := m) shadowed_built 2 ⟨.identifier, "b", 3⟩
  refine ⟨shadowed_built, hheld, rfl, hget, st, hwalk, hdistance, hfilled.filled, ?_, ((hundefined hnone).2.2 7).1⟩
  exact hfilled.others 0 "a" (by simp)

end Store

end LoxLang
