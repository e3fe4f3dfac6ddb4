import Mathlib.Data.List.Infix
import LoxLang.Proofs.Run.Alike.Basic
import LoxLang.Proofs.Scope.Alike

namespace LoxLang
open Scoping

/-- For each scope of a run, how the names of the local scopes from it outward are spelled in the other run. -/
abbrev Spellings := Array Spelling

namespace Spellings

/-- The scopes there are keep their spelling. -/
def Extends (W W' : Spellings) : Prop := ∀ (s : ScopeId) (Γ : Spelling), W[s]? = some Γ → W'[s]? = some Γ

variable {W W' W'' : Spellings}

theorem Extends.refl (W : Spellings) : W.Extends W := fun _ _ h => h

theorem Extends.trans (h : W.Extends W') (h' : W'.Extends W'') : W.Extends W'' := fun s Γ hs => h' s Γ (h s Γ hs)

theorem Extends.push (W : Spellings) (Γ : Spelling) : W.Extends (W.push Γ) := by
  intro s Δ hs
  rw [Array.getElem?_push, if_neg]
  · exact hs
  · rintro rfl
    rw [Array.getElem?_eq_none (Nat.le_refl _)] at hs
    cases hs

/-- Scopes that there are keep their spellings. -/
theorem Extends.map_eq (h : W.Extends W') {scopes : List ScopeId} {Γs : List Spelling}
    (hs : scopes.map (W[·]?) = Γs.map some) : scopes.map (W'[·]?) = Γs.map some := by
  induction scopes generalizing Γs with
  | nil => exact hs
  | cons s scopes ih =>
    cases Γs with
    | nil => cases hs
    | cons Γ Γs =>
      rw [List.map_cons, List.map_cons, List.cons.injEq] at hs ⊢
      exact ⟨h s Γ hs.1, ih hs.2⟩

end Spellings

/-- Functions that are alike, in the same scope, with the scopes told between it and the code. -/
structure Closure.Alike (A : Agreement) (W : Spellings) (between : Spelling) (f f' : Closure) : Prop where
  id : f'.id = f.id
  scope : f'.scope = f.scope
  initializes : f'.initializes = f.initializes
  code : ∃ Γ, W[f.scope]? = some Γ ∧ AlikeFunction A (between ++ Γ) f.declaration f'.declaration

structure Class.Alike (A : Agreement) (W : Spellings) (c c' : Class) : Prop where
  id : c'.id = c.id
  name : c'.name = c.name
  /-- The scope of `this` is between the class and the code of its methods. -/
  methods : c.methods.Alike (Closure.Alike A W [.refl _]) c'.methods

inductive Value.Alike (A : Agreement) (W : Spellings) : Value → Value → Prop
  | plain {v : Value} (h : v.Plain) : Value.Alike A W v v
  | function {f f' : Closure} (h : f.Alike A W [] f') : Value.Alike A W (.function f) (.function f')
  | class {c c' : Class} (h : c.Alike A W c') : Value.Alike A W (.class c) (.class c')
  | instance (id : ObjectId) {c c' : Class} (h : c.Alike A W c') :
    Value.Alike A W (.instance id c) (.instance id c')

variable {A : Agreement} {W W' : Spellings}

namespace Closure.Alike

variable {between : Spelling} {f f' : Closure}

theorem grows (h : f.Alike A W between f') (hW : W.Extends W') : f.Alike A W' between f' := by
  obtain ⟨Γ, hΓ, hf⟩ := h.code
  exact ⟨h.id, h.scope, h.initializes, Γ, hW _ _ hΓ, hf⟩

/-- Names of functions are shown in texts, and they are the same in both runs. -/
theorem name_eq (h : f.Alike A W between f') : f'.name = f.name := by
  obtain ⟨Γ, -, hf⟩ := h.code
  unfold Closure.name
  rw [hf.name_eq]

theorem arity_eq (h : f.Alike A W between f') : f'.arity = f.arity := by
  obtain ⟨Γ, -, hf⟩ := h.code
  exact hf.arity_eq

end Closure.Alike

namespace Class.Alike

variable {c c' : Class}

theorem grows (h : c.Alike A W c') (hW : W.Extends W') : c.Alike A W' c' :=
  ⟨h.id, h.name, h.methods.imp fun _ _ hf => hf.grows hW⟩

theorem initializer? (h : c.Alike A W c') :
    Option.Rel (Closure.Alike A W [.refl _]) c.initializer? c'.initializer? := h.methods "init"

theorem arity_eq (h : c.Alike A W c') : c'.arity = c.arity := by
  have hi := h.initializer?
  unfold Class.arity
  generalize c.initializer? = x at hi ⊢
  generalize c'.initializer? = y at hi ⊢
  cases hi with
  | some hf => simp [hf.arity_eq]
  | none => rfl

end Class.Alike

namespace Value.Alike

variable {v v' : Value}

theorem grows (h : v.Alike A W v') (hW : W.Extends W') : v.Alike A W' v' := by
  cases h with
  | plain h => exact .plain h
  | function h => exact .function (h.grows hW)
  | «class» h => exact .class (h.grows hW)
  | «instance» id h => exact .instance id (h.grows hW)

/-- Operators tell no difference. -/
theorem same (h : v.Alike A W v') : v.Same v' := by
  cases h with
  | plain h => exact .plain h
  | function h => exact .function h.id h.name_eq
  | «class» h => exact .class h.id h.name
  | «instance» id h => exact .instance id h.name

end Value.Alike

/-- What is read is alike, or is missing for the same reason. -/
inductive AlikeRead (A : Agreement) (W : Spellings) : Except AccessError Value → Except AccessError Value → Prop
  | error (e : AccessError) : AlikeRead A W (.error e) (.error e)
  | ok {v v' : Value} (h : v.Alike A W v') : AlikeRead A W (.ok v) (.ok v')

abbrev Cell.Alike (A : Agreement) (W : Spellings) : Cell → Cell → Prop := Option.Rel (Value.Alike A W)

structure Store.Alike (A : Agreement) (W : Spellings) (st st' : Store) : Prop where
  size : W.size = st.next
  next : st'.next = st.next
  chain : ∀ s, st'.chain s = st.chain s
  outward : ∀ (s : ScopeId) (Γ : Spelling), W[s]? = some Γ → (st.chain s).map (W[·]?) = Γ.tails.map some
  globals : W[Machine.globals]? = some []
  this_eq : ∀ (s : ScopeId) (Γ : Spelling), W[s]? = some Γ → Γ.here "this" = "this"
  cell : ∀ (s : ScopeId) (Γ : Spelling) (x : String), W[s]? = some Γ →
    Option.Rel (Cell.Alike A W) (st.cell? s x) (st'.cell? s (Γ.here x))

namespace Scoping.Spelling

/-- The spelling of a scope farther outward is that of the name as seen through the distance to it. -/
theorem here_drop (Γ : Spelling) (d : Nat) : here (Γ.drop d) = Γ.outward (some d) := by
  simp [here, outward, List.head?_drop, List.headD_eq_head?_getD]

end Scoping.Spelling

namespace Store.Alike

variable {st st' : Store} {s a : ScopeId} {Γ : Spelling}

theorem lt_next (h : st.Alike A W st') (hs : W[s]? = some Γ) : s < st.next := by
  rw [← h.size]
  exact (Array.getElem?_eq_some_iff.1 hs).1

theorem ancestor?_eq (h : st.Alike A W st') (s : ScopeId) (d : Nat) : st'.ancestor? s d = st.ancestor? s d := by
  unfold Store.ancestor?
  rw [h.chain]

/-- The scopes outward have their names spelled as the innermost says. -/
theorem spelling_of_ancestor (h : st.Alike A W st') (hs : W[s]? = some Γ) {d : Nat}
    (ha : st.ancestor? s d = some a) : W[a]? = some (Γ.drop d) := by
  have hd : ((st.chain s).map (W[·]?))[d]? = some W[a]? := by
    rw [List.getElem?_map]
    exact congrArg (Option.map (W[·]?)) ha
  rw [h.outward s Γ hs, List.getElem?_map, Option.map_eq_some_iff] at hd
  obtain ⟨Δ, hΔ, he⟩ := hd
  obtain ⟨hlt, hget⟩ := List.getElem?_eq_some_iff.1 hΔ
  rw [← he, ← hget, List.getElem_tails]

/-- Both runs find the holder in the same scope, each under its own spelling. -/
theorem holderAt_eq (h : st.Alike A W st') (hs : W[s]? = some Γ) (d : Nat) (x : String) :
    st'.holderAt s d (Γ.outward (some d) x) = st.holderAt s d x := by
  unfold Store.holderAt
  rw [h.ancestor?_eq]
  cases ha : st.ancestor? s d with
  | none => rfl
  | some a =>
    have hc := h.cell a _ x (h.spelling_of_ancestor hs ha)
    rw [Spelling.here_drop] at hc
    simp only [hc.isSome_eq]

theorem readCell {cell cell' : Option Cell} (h : Option.Rel (Cell.Alike A W) cell cell') :
    AlikeRead A W (Store.readCell cell) (Store.readCell cell') := by
  cases h with
  | none => exact .error _
  | some h =>
    cases h with
    | none => exact .error _
    | some h => exact .ok h

theorem getAt (h : st.Alike A W st') (hs : W[s]? = some Γ) (d : Nat) (x : String) :
    AlikeRead A W (st.getAt s d x) (st'.getAt s d (Γ.outward (some d) x)) := by
  unfold Store.getAt
  rw [h.holderAt_eq hs]
  cases ha : st.holderAt s d x with
  | error e => exact .error e
  | ok a =>
    have hc := h.cell a _ x (h.spelling_of_ancestor hs (Store.has_of_holderAt ha).1)
    rw [Spelling.here_drop] at hc
    exact readCell hc

theorem chain_globals (h : st.Alike A W st') : st.chain Machine.globals = [Machine.globals] := by
  have hc := h.outward _ _ h.globals
  obtain ⟨outer, ho⟩ := st.chain_eq_cons Machine.globals
  rw [ho] at hc ⊢
  cases outer with
  | nil => rfl
  | cons => simp at hc

/-- Global names are not respelled. -/
theorem holder_globals (h : st.Alike A W st') (x : String) :
    st'.holder Machine.globals x = st.holder Machine.globals x := by
  have hc := h.cell _ _ x h.globals
  unfold Store.holder
  rw [h.chain, h.chain_globals]
  change Option.Rel _ (st.cell? Machine.globals x) (st'.cell? Machine.globals x) at hc
  simp only [Store.nearest?, hc.isSome_eq]

/-- A global name is nowhere else than in the scope of the globals. -/
theorem eq_globals_of_holder (h : st.Alike A W st') {x : String} (ha : st.holder Machine.globals x = .ok a) :
    a = Machine.globals := by
  unfold Store.holder at ha
  rw [h.chain_globals, Store.nearest?, Store.nearest?] at ha
  by_cases hx : (st.cell? Machine.globals x).isSome = true
  · rw [if_pos hx] at ha
    exact (Except.ok.inj ha).symm
  · rw [if_neg hx] at ha
    cases ha

theorem get_globals (h : st.Alike A W st') (x : String) :
    AlikeRead A W (st.get Machine.globals x) (st'.get Machine.globals x) := by
  unfold Store.get
  rw [h.holder_globals]
  cases ha : st.holder Machine.globals x with
  | error e => exact .error e
  | ok a =>
    have hg := h.eq_globals_of_holder ha
    subst hg
    exact readCell (h.cell _ _ x h.globals)

/-- The cell of a name is set in both runs, each under its own spelling. -/
theorem setCell (h : st.Alike A W st') (hs : W[s]? = some Γ) (x : String) {cell cell' : Cell}
    (hc : cell.Alike A W cell') : (st.setCell s x cell).Alike A W (st'.setCell s (Γ.here x) cell') where
  size := by rw [Store.next_setCell, h.size]
  next := by rw [Store.next_setCell, Store.next_setCell, h.next]
  chain := by
    intro t
    rw [Store.chain_setCell, Store.chain_setCell, h.chain]
  outward := by
    intro t Δ ht
    rw [Store.chain_setCell]
    exact h.outward t Δ ht
  globals := h.globals
  this_eq := h.this_eq
  cell := by
    intro t Δ y ht
    have hlt := h.lt_next hs
    rw [Store.cell?_setCell hlt, Store.cell?_setCell (h.next ▸ hlt)]
    by_cases hst : s = t
    · subst hst
      cases hs.symm.trans ht
      by_cases hxy : x = y
      · simp [hxy, hc]
      · simp [hxy, h.cell s Γ y hs]
    · simp [hst, h.cell t Δ y ht]

/-- A new scope inside another one, its names spelled in any way. -/
theorem child (h : st.Alike A W st') (hs : W[s]? = some Γ) {κ : Equiv.Perm String} (hκ : κ "this" = "this") :
    (st.child s).2.Alike A (W.push (κ :: Γ)) (st'.child s).2 where
  size := by simp [Store.child, h.size]
  next := by simp [Store.child, h.next]
  chain := by
    intro t
    rw [Store.child, Store.child, Store.chain_addScope, Store.chain_addScope, h.next, h.chain, h.chain]
  outward := by
    intro t Δ ht
    rw [Store.child, Store.chain_addScope]
    rw [Array.getElem?_push, h.size] at ht
    split at ht
    · next he =>
      cases ht
      have hnew : (W.push (κ :: Γ))[st.next]? = some (κ :: Γ) := by simp [← h.size]
      rw [if_pos he, List.map_cons, hnew, (Spellings.Extends.push W _).map_eq (h.outward s Γ hs)]
      rfl
    · next he =>
      rw [if_neg he]
      exact (Spellings.Extends.push W _).map_eq (h.outward t Δ ht)
  globals := Spellings.Extends.push W _ _ _ h.globals
  this_eq := by
    intro t Δ ht
    rw [Array.getElem?_push] at ht
    split at ht
    · cases ht
      exact hκ
    · exact h.this_eq t Δ ht
  cell := by
    intro t Δ x ht
    rw [Store.child, Store.child, Store.cell?_addScope, Store.cell?_addScope]
    rw [Array.getElem?_push, h.size] at ht
    split at ht
    · next he =>
      -- the new scope has no cells in either store
      subst he
      rw [Store.cell?_next, ← h.next, Store.cell?_next]
      exact .none
    · exact (h.cell t Δ x ht).imp fun _ _ hc => hc.imp fun _ _ hv => hv.grows (.push W _)

end Store.Alike

structure Machine.Alike (A : Agreement) (W : Spellings) (m m' : Machine) : Prop where
  store : m.store.Alike A W m'.store
  objects : m'.fields.size = m.fields.size
  fields : ∀ o : ObjectId, Option.Rel (NameMap.Alike (Value.Alike A W)) m.fields[o]? m'.fields[o]?
  scope : m'.scope = m.scope
  loopDepth : m'.loopDepth = m.loopDepth
  callDepth : m'.callDepth = m.callDepth
  readings : m'.readings = m.readings
  printed : m'.printed = m.printed

namespace Machine.Alike

/-- Nothing but the natives is there, and they are global. -/
theorem initial (A : Agreement) : Machine.initial.Alike A #[[]] .initial where
  store := by
    have hspelling : ∀ (s : ScopeId) (Γ : Spelling), (#[[]] : Spellings)[s]? = some Γ → s = 0 ∧ Γ = [] := by
      intro s Γ h
      cases s with
      | zero => exact ⟨rfl, (Option.some.inj h).symm⟩
      | succ s => simp at h
    constructor
    case size => rfl
    case next => rfl
    case chain => exact fun _ => rfl
    case globals => rfl
    case outward =>
      intro s Γ h
      obtain ⟨rfl, rfl⟩ := hspelling s Γ h
      rfl
    case this_eq =>
      intro s Γ h
      obtain ⟨rfl, rfl⟩ := hspelling s Γ h
      rfl
    case cell =>
      intro s Γ x h
      obtain ⟨rfl, rfl⟩ := hspelling s Γ h
      change Option.Rel _ (Machine.initial.store.cell? 0 x) (Machine.initial.store.cell? 0 x)
      have hlt : Machine.globals < Store.empty.root.2.next := by decide
      rw [Machine.initial, Store.define, Store.cell?_setCell hlt]
      split
      · exact .some (.some (.plain trivial))
      · exact .none
  objects := rfl
  fields := fun _ => .none
  scope := rfl
  loopDepth := rfl
  callDepth := rfl
  readings := rfl
  printed := rfl

end Machine.Alike

end LoxLang
