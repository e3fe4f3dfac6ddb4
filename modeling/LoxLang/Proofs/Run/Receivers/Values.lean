import LoxLang.Proofs.Run.Values
import LoxLang.Proofs.Run.Receivers.Stores

namespace LoxLang

variable {N N' : Notes} {st st' : Store} {m m' : Machine}

/-- The function of a statement: it is no initializer, and was not declared in a scope that binds `this`. -/
structure Closure.Ordinary (declared : Function → Prop) (st : Store) (f : Closure) : Prop where
  declared : declared f.declaration
  initializes : f.initializes = false
  scope : ¬st.Has f.scope "this"

/-- A method whose scope binds `this` alone, to an instance of a class that has the method under its name. -/
structure Closure.Bound (st : Store) (f : Closure) : Prop where
  initializes : f.initializes = f.declaration.isInitializer
  receiver : ∃ id cls method, st.Hides f.scope (.instance id cls) ∧ cls.methods.find? f.name = some method ∧
    method.declaration = f.declaration

/-- The scopes around the function are those that its text has. -/
structure Closure.Proper (N : Notes) (st : Store) (f : Closure) : Prop where
  kind : f.Ordinary N.function st ∨ f.Bound st
  aimed : ∃ shape, st.Shaped f.scope shape ∧ f.declaration.Aimed N shape

/-- An initializer is bound, as no statement declares one. -/
theorem Closure.Proper.bound {f : Closure} (h : f.Proper N st) (hi : f.initializes = true) : f.Bound st := by
  obtain ho | hb := h.kind
  · rw [ho.initializes] at hi
    cases hi
  · exact hb

/-- As a method in a table, the function lacks the scope of `this`. -/
structure Closure.Unbound (N : Notes) (st : Store) (name : String) (f : Closure) : Prop where
  name_eq : f.name = name
  initializes : f.initializes = f.declaration.isInitializer
  aimed : ∃ shape, st.Shaped f.scope shape ∧ f.declaration.Aimed N (true :: shape)

/-- The method under the name of an initializer is one. -/
theorem Closure.Unbound.of_init {f : Closure} (h : f.Unbound N st "init") : f.initializes = true := by
  rw [h.initializes]
  exact decide_eq_true h.name_eq

def Class.Proper (N : Notes) (st : Store) (c : Class) : Prop :=
  ∀ name method, c.methods.find? name = some method → method.Unbound N st name

def Value.Proper (N : Notes) (st : Store) : Value → Prop
  | .function f => f.Proper N st
  | .class c => c.Proper N st
  | .instance _ c => c.Proper N st
  | _ => True

def Flow.Proper (N : Notes) (st : Store) : Flow → Prop
  | .return value => value.Proper N st
  | _ => True

namespace Machine

/-- The value is in a cell or in a field. -/
def Holds (m : Machine) (v : Value) : Prop :=
  (∃ s name, m.store.cell? s name = some (some v)) ∨
    ∃ object : ObjectId, ∃ fields name, m.fields[object]? = some fields ∧ fields.find? name = some v

structure Proper (N : Notes) (m : Machine) : Prop where
  values : ∀ v, m.Holds v → v.Proper N m.store
  hidden : ∀ s, m.store.Has s "this" → ∃ id cls, m.store.Hides s (.instance id cls)
  globals : m.store.Shaped globals [false]

end Machine

theorem Closure.Ordinary.mono {f : Closure} (h : f.Ordinary N.function st) (hN : N.Within N') (hs : f.scope < st.next)
    (hk : st.Keeps st') : f.Ordinary N'.function st' where
  declared := hN.function f.declaration h.declared
  initializes := h.initializes
  scope := hk.not_has hs h.scope

theorem Closure.Bound.keeps {f : Closure} (h : f.Bound st) (hk : st.Keeps st') : f.Bound st' := by
  obtain ⟨hi, id, cls, method, hh, hm⟩ := h
  exact ⟨hi, id, cls, method, hh.keeps hk, hm⟩

/-- A function that is proper stays so while notes and scopes are added. -/
theorem Closure.Proper.mono {f : Closure} (h : f.Proper N st) (hN : N.Within N') (hk : st.Keeps st') :
    f.Proper N' st' := by
  obtain ⟨hkind, shape, hs, ha⟩ := h
  refine ⟨?_, shape, hs.keeps hk, Function.aimed_mono hN _ ha⟩
  exact hkind.imp (fun h => h.mono hN hs.lt hk) fun h => h.keeps hk

theorem Class.Proper.mono {c : Class} (h : c.Proper N st) (hN : N.Within N') (hk : st.Keeps st') :
    c.Proper N' st' := by
  intro name method hm
  obtain ⟨hname, hi, shape, hs, ha⟩ := h name method hm
  exact ⟨hname, hi, shape, hs.keeps hk, Function.aimed_mono hN _ ha⟩

theorem Value.Proper.mono {v : Value} (h : v.Proper N st) (hN : N.Within N') (hk : st.Keeps st') :
    v.Proper N' st' := by
  cases v with
  | function f => exact Closure.Proper.mono h hN hk
  | «class» c | «instance» _ c => exact Class.Proper.mono h hN hk
  | _ => trivial

theorem Notes.Within.refl (N : Notes) : N.Within N := ⟨fun _ _ h => h, fun _ h => h⟩

theorem Closure.Proper.keeps {f : Closure} (h : f.Proper N st) (hk : st.Keeps st') : f.Proper N st' :=
  h.mono (.refl N) hk

theorem Class.Proper.keeps {c : Class} (h : c.Proper N st) (hk : st.Keeps st') : c.Proper N st' :=
  h.mono (.refl N) hk

theorem Value.Proper.keeps {v : Value} (h : v.Proper N st) (hk : st.Keeps st') : v.Proper N st' :=
  h.mono (.refl N) hk

theorem Flow.Proper.mono {flow : Flow} (h : flow.Proper N st) (hN : N.Within N') (hk : st.Keeps st') :
    flow.Proper N' st' := by
  cases flow with
  | «return» v => exact Value.Proper.mono h hN hk
  | _ => trivial

theorem Value.Plain.proper {v : Value} (h : v.Plain) : v.Proper N st := by
  cases v <;> trivial

namespace Machine

theorem Proper.mono (h : m.Proper N) (hN : N.Within N') : m.Proper N' :=
  ⟨fun v hv => (h.values v hv).mono hN (.refl m.store), h.hidden, h.globals⟩

/-- A receiver is an instance, in a scope of its own. -/
theorem Proper.receiver (h : m.Proper N) {s : ScopeId} {x : Value} (hx : m.store.receiver? s = some x) :
    (∃ t ∈ m.store.chain s, m.store.Hides t x) ∧ ∃ id cls, x = .instance id cls := by
  obtain ⟨t, ht, hx⟩ := List.exists_of_findSome?_eq_some hx
  have hc : m.store.cell? t "this" = some (some x) := Option.join_eq_some_iff.1 hx
  have hh : m.store.Has t "this" := by
    unfold Store.Has
    rw [hc]
    rfl
  obtain ⟨id, cls, ho⟩ := h.hidden t hh
  have he : x = .instance id cls := by
    rw [ho "this", if_pos rfl, Option.some.injEq, Option.some.injEq] at hc
    exact hc.symm
  rw [he]
  exact ⟨⟨t, ht, ho⟩, id, cls, rfl⟩

/-- Nothing but cells and fields counts. -/
theorem Proper.of_eq (h : m.Proper N) (hs : m'.store = m.store) (hf : m'.fields = m.fields) : m'.Proper N := by
  obtain ⟨hvalues, hhidden, hglobals⟩ := h
  unfold Holds at hvalues
  rw [← hs, ← hf] at hvalues
  rw [← hs] at hhidden hglobals
  exact ⟨hvalues, hhidden, hglobals⟩

/-- What comes new to a machine is proper. -/
theorem Proper.step (h : m.Proper N) (hk : m.store.Keeps m'.store)
    (hv : ∀ v, m'.Holds v → m.Holds v ∨ v.Proper N m'.store)
    (hh : ∀ s, m'.store.Has s "this" → m.store.Has s "this" ∨ ∃ id cls, m'.store.Hides s (.instance id cls)) :
    m'.Proper N where
  values := fun v hm => (hv v hm).elim (fun hm => (h.values v hm).keeps hk) id
  hidden := by
    intro s hs
    rcases hh s hs with hs | hs
    · obtain ⟨id, cls, ho⟩ := h.hidden s hs
      exact ⟨id, cls, ho.keeps hk⟩
    · exact hs
  globals := h.globals.keeps hk

/-- What is in a cell then was held before, or has just been put there. -/
theorem holds_setCell {s : ScopeId} {name : String} {cell : Cell} {v : Value} (hs : s < m.store.next)
    (h : { m with store := m.store.setCell s name cell }.Holds v) : m.Holds v ∨ cell = some v := by
  obtain ⟨t, other, hc⟩ | hf := h
  · rw [Store.cell?_setCell hs] at hc
    split at hc
    · cases hc
      exact .inr rfl
    · exact .inl (.inl ⟨t, other, hc⟩)
  · exact .inl (.inr hf)

theorem holds_child {s : ScopeId} {v : Value} (h : { m with store := (m.store.child s).2 }.Holds v) : m.Holds v := by
  obtain ⟨t, name, hc⟩ | hf := h
  · exact .inl ⟨t, name, by simpa [Store.child] using hc⟩
  · exact .inr hf

/-- A new object has no fields. -/
theorem field_of_newObject {id : ObjectId} {fields : NameMap Value} {name : String} {v : Value}
    (hf : (m.fields.push .empty)[id]? = some fields) (hv : fields.find? name = some v) :
    m.fields[id]? = some fields := by
  rw [Array.getElem?_push] at hf
  split at hf
  · cases hf
    cases hv
  · exact hf

theorem field_of_setField {object id : ObjectId} {fields : NameMap Value} {name other : String} {x v : Value}
    (hf : (m.fields.modify object fun fields => fields.set name x)[id]? = some fields)
    (hv : fields.find? other = some v) :
    v = x ∨ ∃ old, m.fields[id]? = some old ∧ old.find? other = some v := by
  rw [Array.getElem?_modify] at hf
  split at hf
  · obtain ⟨old, hold, rfl⟩ := Option.map_eq_some_iff.1 hf
    rw [NameMap.find?_set] at hv
    split at hv
    · cases hv
      exact .inl rfl
    · exact .inr ⟨old, hold, hv⟩
  · exact .inr ⟨fields, hf, hv⟩

theorem holds_newObject {v : Value} (h : { m with fields := m.fields.push .empty }.Holds v) : m.Holds v := by
  obtain hc | ⟨object, fields, name, hf, hv⟩ := h
  · exact .inl hc
  · exact .inr ⟨object, fields, name, field_of_newObject hf hv, hv⟩

theorem holds_setField {object : ObjectId} {name : String} {x v : Value}
    (h : { m with fields := m.fields.modify object fun fields => fields.set name x }.Holds v) :
    m.Holds v ∨ v = x := by
  obtain hc | ⟨other, fields, field, hf, hv⟩ := h
  · exact .inl (.inl hc)
  · obtain hx | ⟨old, hold, hv⟩ := field_of_setField hf hv
    · exact .inr hx
    · exact .inl (.inr ⟨other, old, field, hold, hv⟩)

namespace Proper

variable {s : ScopeId} {name : String}

/-- No program has run, so all that is held is a native. -/
theorem initial (N : Notes) : Machine.initial.Proper N := by
  have hlt : Machine.globals < Store.empty.root.2.next := by decide
  have hcell : ∀ s name, Machine.initial.store.cell? s name =
      if Machine.globals = s ∧ Native.clock.name = name then some (some (.native .clock)) else none := by
    intro s name
    rw [Machine.initial, Store.define, Store.cell?_setCell hlt, Store.root, Store.cell?_addScope]
    rfl
  constructor
  case values =>
    rintro v (⟨s, name, hc⟩ | ⟨object, fields, name, hf, -⟩)
    · rw [hcell] at hc
      split at hc
      · cases hc
        trivial
      · cases hc
    · simp [Machine.initial] at hf
  case hidden =>
    intro s hs
    unfold Store.Has at hs
    rw [hcell, if_neg] at hs
    · cases hs
    · rintro ⟨-, hn⟩
      exact absurd hn (by decide)
  case globals => exact ⟨by decide, by decide⟩

/-- A cell of a name, in a scope that is not around methods. -/
theorem setCell {cell : Cell} (h : m.Proper N) (hs : s < m.store.next) (hn : name ≠ "this")
    (hh : ¬m.store.Has s "this") (hc : ∀ v, cell = some v → v.Proper N m.store) :
    { m with store := m.store.setCell s name cell }.Proper N := by
  have hk : m.store.Keeps (m.store.setCell s name cell) := .setCell hs hn hh cell
  refine h.step hk (fun v hv => ?_) fun t ht => .inl ?_
  · exact (holds_setCell hs hv).imp_right fun hv => (hc v hv).keeps hk
  · obtain ⟨-, he⟩ | ht := (Store.has_setCell hs name cell t "this").1 ht
    · exact absurd he hn
    · exact ht

theorem child (h : m.Proper N) (s : ScopeId) : { m with store := (m.store.child s).2 }.Proper N :=
  h.step (.addScope m.store _) (fun _ hv => .inl (holds_child hv)) fun t ht =>
    .inl (by simpa [Store.Has, Store.child] using ht)

theorem newObject (h : m.Proper N) : { m with fields := m.fields.push .empty }.Proper N :=
  h.step (.refl m.store) (fun _ hv => .inl (holds_newObject hv)) fun _ hs => .inl hs

theorem setField {object : ObjectId} {x : Value} (h : m.Proper N) (hx : x.Proper N m.store) :
    { m with fields := m.fields.modify object fun fields => fields.set name x }.Proper N :=
  h.step (.refl m.store) (fun _ hv => (holds_setField hv).imp_right (by rintro rfl; exact hx)) fun _ hs => .inl hs

/-- A scope around the methods of an instance. -/
theorem addThis {id : ObjectId} {cls : Class} (h : m.Proper N) (hc : cls.Proper N m.store) (s : ScopeId) :
    { m with store := m.store.addThis s (.instance id cls) }.Proper N := by
  have hk := m.store.keeps_addThis s (.instance id cls)
  refine h.step hk (fun v hv => ?_) fun t ht => ?_
  · obtain ⟨t, name, hv⟩ | hf := hv
    · rw [Store.cell?_addThis] at hv
      split at hv
      · cases hv
        exact .inr (hc.keeps hk)
      · exact .inl (.inl ⟨t, name, hv⟩)
    · exact .inl (.inr hf)
  · unfold Store.Has at ht ⊢
    rw [Store.cell?_addThis] at ht
    split at ht
    · next he =>
      rw [← he.1]
      exact .inr ⟨id, cls, m.store.addThis_hides s _⟩
    · exact .inl ht

end Proper

end Machine

end LoxLang
