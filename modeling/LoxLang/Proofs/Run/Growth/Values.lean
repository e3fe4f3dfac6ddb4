import Mathlib.Logic.Relation
import LoxLang.Proofs.Run.Moves
import LoxLang.Proofs.Run.Receivers.Values
import LoxLang.Proofs.Run.Growth.Stores

namespace LoxLang

variable {n n' : ScopeId} {s : ScopeId} {name x : String} {m m' : Machine}

def Class.Rooted (n : ScopeId) (c : Class) : Prop := ∀ name f, c.methods.find? name = some f → f.scope < n

/-- Each function in the value has its scope among the first ones, up to the number told. -/
def Value.Rooted (n : ScopeId) : Value → Prop
  | .function f => f.scope < n
  | .class c => c.Rooted n
  | .instance _ c => c.Rooted n
  | _ => True

def Flow.Rooted (n : ScopeId) : Flow → Prop
  | .return value => value.Rooted n
  | _ => True

theorem Class.Rooted.mono {c : Class} (h : c.Rooted n) (hn : n ≤ n') : c.Rooted n' :=
  fun name f hf => Nat.lt_of_lt_of_le (h name f hf) hn

theorem Value.Rooted.mono {v : Value} (h : v.Rooted n) (hn : n ≤ n') : v.Rooted n' := by
  cases v with
  | function f => exact Nat.lt_of_lt_of_le h hn
  | «class» c | «instance» _ c => exact Class.Rooted.mono h hn
  | _ => trivial

/-- A value without a function is over no scopes. -/
theorem Value.Plain.rooted {v : Value} (h : v.Plain) : v.Rooted n := by
  cases v <;> trivial

namespace Machine

/-- All that is held is over the first scopes, and so is the current one. -/
structure RootedIn (n : ScopeId) (m : Machine) : Prop where
  grounded : m.store.Grounded
  le : n ≤ m.store.next
  scope : m.scope < n
  values : ∀ v, m.Holds v → v.Rooted n

/-- The scopes there are suffice for all that is held. -/
abbrev Closed (m : Machine) : Prop := m.RootedIn m.store.next

/-- The newest scope, which nothing that is held needs. -/
structure Fresh (m : Machine) (s : ScopeId) : Prop where
  newest : m.store.next = s + 1
  rooted : m.RootedIn s

namespace RootedIn

theorem mono (h : m.RootedIn n) (hn : n ≤ n') (hle : n' ≤ m.store.next) : m.RootedIn n' where
  grounded := h.grounded
  le := hle
  scope := Nat.lt_of_lt_of_le h.scope hn
  values := fun v hv => (h.values v hv).mono hn

theorem closed (h : m.RootedIn n) : m.Closed := h.mono h.le (Nat.le_refl _)

theorem of_eq (h : m.RootedIn n) (hs : m'.store = m.store) (hf : m'.fields = m.fields) (hc : m'.scope < n) :
    m'.RootedIn n where
  grounded := hs ▸ h.grounded
  le := hs ▸ h.le
  scope := hc
  values := by
    have hvalues := h.values
    unfold Holds at hvalues ⊢
    rwa [hs, hf]

theorem setCell {cell : Cell} (h : m.RootedIn n) (hs : s < m.store.next) (hc : ∀ v, cell = some v → v.Rooted n) :
    { m with store := m.store.setCell s name cell }.RootedIn n where
  grounded := h.grounded.setCell s name cell
  le := by
    rw [Store.next_setCell]
    exact h.le
  scope := h.scope
  values := fun v hv => (holds_setCell hs hv).elim (h.values v) (hc v)

theorem newObject (h : m.RootedIn n) : { m with fields := m.fields.push .empty }.RootedIn n where
  grounded := h.grounded
  le := h.le
  scope := h.scope
  values := fun v hv => h.values v (holds_newObject hv)

theorem setField {object : ObjectId} {v : Value} (h : m.RootedIn n) (hv : v.Rooted n) :
    { m with fields := m.fields.modify object fun fields => fields.set name v }.RootedIn n where
  grounded := h.grounded
  le := h.le
  scope := h.scope
  values := fun w hw => (holds_setField hw).elim (h.values w) (by rintro rfl; exact hv)

end RootedIn

theorem Fresh.closed (h : m.Fresh s) : m.Closed := h.rooted.closed

theorem Fresh.of_eq (h : m.Fresh s) (hs : m'.store = m.store) (hf : m'.fields = m.fields) (hc : m'.scope < s) :
    m'.Fresh s := ⟨hs ▸ h.newest, h.rooted.of_eq hs hf hc⟩

theorem Fresh.lt (h : m.Fresh s) : s < m.store.next := by
  rw [h.newest]
  exact Nat.lt_succ_self s

/-- A new scope is needed by nothing. -/
theorem Closed.child (h : m.Closed) (hs : s < m.store.next) :
    ({ m with store := (m.store.child s).2 } : Machine).Fresh m.store.next where
  newest := Store.next_addScope _
  rooted := by
    refine ⟨h.grounded.child hs, ?_, h.scope, fun v hv => h.values v (holds_child hv)⟩
    change m.store.next ≤ (m.store.addScope _).2.next
    rw [Store.next_addScope]
    exact Nat.le_succ _

/-- In the beginning there is the scope of the globals and a native in it, which has no scope. -/
theorem Closed.initial : Machine.initial.Closed where
  grounded := .initial
  le := Nat.le_refl _
  scope := by decide
  values := by
    rintro v (⟨s, name, hc⟩ | ⟨object, fields, name, hf, -⟩)
    · have hlt : Machine.globals < Store.empty.root.2.next := by decide
      rw [Machine.initial, Store.define, Store.cell?_setCell hlt, Store.root, Store.cell?_addScope] at hc
      split at hc
      · cases hc
        trivial
      · cases hc
    · simp [Machine.initial] at hf

end Machine

inductive Node where
  | scope (s : ScopeId)
  | value (v : Value)

namespace Machine

/-- One step along what a machine holds: from a scope to the one around it and to the values of its cells, from a
function to its scope, from a class to its methods, from an instance to its class and to the values of its fields. -/
inductive Refers (m : Machine) : Node → Node → Prop
  | enclosing {s e : ScopeId} (h : m.store.enclosing? s = some e) : Refers m (.scope s) (.scope e)
  | cell {s : ScopeId} {name : String} {v : Value} (h : m.store.cell? s name = some (some v)) :
    Refers m (.scope s) (.value v)
  | closure (f : Closure) : Refers m (.value (.function f)) (.scope f.scope)
  | method {c : Class} {name : String} {f : Closure} (h : c.methods.find? name = some f) :
    Refers m (.value (.class c)) (.value (.function f))
  | cls (id : ObjectId) (c : Class) : Refers m (.value (.instance id c)) (.value (.class c))
  | field {id : ObjectId} {c : Class} {fields : NameMap Value} {name : String} {v : Value}
    (hf : m.fields[id]? = some fields) (hv : fields.find? name = some v) :
    Refers m (.value (.instance id c)) (.value v)

def Reachable (m : Machine) : Node → Node → Prop := Relation.ReflTransGen m.Refers

end Machine

/-- A scope that was there, or a value over such scopes. -/
def Node.Below (n : ScopeId) : Node → Prop
  | .scope s => s < n
  | .value v => v.Rooted n

namespace Machine

variable {a b : Node}

theorem RootedIn.refers (h : m.RootedIn n) (hr : m.Refers a b) (ha : a.Below n) : b.Below n := by
  -- whatever a cell or a field holds is over the first scopes, wherever the cell is
  cases hr with
  | enclosing he => exact Nat.lt_trans (h.grounded.linked.enclosing_lt he) ha
  | cell hc => exact h.values _ (.inl ⟨_, _, hc⟩)
  | closure f => exact ha
  | method hf => exact ha _ _ hf
  | cls id c => exact ha
  | field hf hv => exact h.values _ (.inr ⟨_, _, _, hf, hv⟩)

/-- Nothing leads from what was there to a scope that is not: by induction along the way. -/
theorem RootedIn.reachable (h : m.RootedIn n) (hr : m.Reachable a b) (ha : a.Below n) : b.Below n := by
  induction hr with
  | refl => exact ha
  | tail _ hstep ih => exact h.refers hstep ih

/-- From what was there before it, a fresh scope is out of reach. -/
theorem Fresh.not_reachable (h : m.Fresh s) (ha : a.Below s) : ¬m.Reachable a (.scope s) :=
  fun hr => Nat.lt_irrefl s (h.rooted.reachable hr ha)

end Machine

/-- A name may be bound in a scope: around the place of the run, where it is bound already; in the current scope; or in
one that is fresh. -/
def Machine.Takes (m : Machine) (s : ScopeId) (name : String) : Prop :=
  (s ∈ m.store.chain m.scope ∧ m.store.Has s name) ∨ s = m.scope ∨ m.Fresh s

theorem Machine.Takes.lt (h : m.Takes s name) (hm : m.Closed) : s < m.store.next := by
  obtain ⟨-, hh⟩ | rfl | hf := h
  · exact hh.lt
  · exact hm.scope
  · exact hf.lt

namespace Move

/-- The change keeps to the scopes there are. -/
def Fits (m : Machine) : Move → Prop
  | scope s => s < m.store.next
  | addScope around => around < m.store.next
  | define s name value => m.Takes s name ∧ value.Rooted m.store.next
  | declare s _ => s = m.scope
  | setField _ _ value => value.Rooted m.store.next
  | _ => True

/-- The change sets the cell of a name. -/
def Sets (s : ScopeId) (name : String) : Move → Prop
  | define t other _ => t = s ∧ other = name
  | declare t other => t = s ∧ other = name
  | _ => False

/-- A change sets cells in one scope only. -/
theorem Sets.scope_eq {move : Move} {s' : ScopeId} {name' : String} (h : move.Sets s name) (h' : move.Sets s' name') :
    s = s' := by
  cases move with
  | define | declare => exact h.1.symm.trans h'.1
  | _ => cases h

namespace Fits

variable {move : Move}

/-- The change makes nothing be held over scopes that are not there. -/
theorem closed (h : move.Fits m) (hm : m.Closed) : (move.apply m).Closed := by
  cases move with
  | scope s => exact hm.of_eq rfl rfl h
  | addScope around => exact (hm.child h).closed
  | define s name value =>
    have hlt := h.1.lt hm
    exact (hm.setCell hlt (by rintro _ ⟨⟩; exact h.2)).closed
  | declare s name =>
    have hlt : s < m.store.next := h ▸ hm.scope
    have hnone : ∀ v, (none : Cell) = some v → v.Rooted m.store.next := nofun
    exact (hm.setCell hlt hnone).closed
  | newObject => exact hm.newObject
  | setField object name value => exact hm.setField h
  | _ => exact hm.of_eq rfl rfl hm.scope

theorem older (h : move.Fits m) (hm : m.Closed) : m.store.Older (move.apply m).store := by
  cases move with
  | addScope around => exact .addScope m.store _
  | define s name value => exact .setCell (h.1.lt hm) name _
  | declare s name => exact .setCell (h ▸ hm.scope) name _
  | _ => exact .refl m.store

/-- No other cell changes. -/
theorem cell?_eq (h : move.Fits m) (hm : m.Closed) (hs : ¬move.Sets s x) :
    (move.apply m).store.cell? s x = m.store.cell? s x := by
  cases move with
  | addScope around => exact Store.cell?_addScope _ s x
  | define t name value => exact (Store.cell?_setCell (h.1.lt hm) name _ s x).trans (if_neg hs)
  | declare t name => exact (Store.cell?_setCell (h ▸ hm.scope) name _ s x).trans (if_neg hs)
  | _ => rfl

/-- A name is in a scope after the change if it was before, or is the one that is set. -/
theorem has (h : move.Fits m) (hm : m.Closed) (hh : (move.apply m).store.Has s x) :
    m.store.Has s x ∨ move.Sets s x := by
  by_cases hs : move.Sets s x
  · exact .inr hs
  · unfold Store.Has at hh ⊢
    rw [h.cell?_eq hm hs] at hh
    exact .inl hh

theorem takes (h : move.Fits m) (hs : move.Sets s x) : m.Takes s x := by
  cases move with
  | define t name value =>
    obtain ⟨rfl, rfl⟩ := hs
    exact h.1
  | declare t name =>
    obtain ⟨rfl, rfl⟩ := hs
    exact .inr (.inl h)
  | _ => cases hs

end Fits

end Move

end LoxLang
