import Mathlib.Data.Set.Insert
import LoxLang.Proofs.Run.Loops.Layers

namespace LoxLang

/-- A place in both runs: the scope that each is in, and the scopes around the place. -/
structure Standpoint where
  direct : ScopeId
  layers : Layers
  desugared : ScopeId

/-- The places that have been come to. -/
abbrev World := Set Standpoint

/-- The scopes, one of each run, have the same names. -/
def World.Shares (W : World) (a a' : ScopeId) : Prop := ∃ k : Layers, k.Open ∧ ⟨a, k, a'⟩ ∈ W

variable {T : TwoRuns} {W W' : World}

theorem World.Shares.grows {a a' : ScopeId} (h : W.Shares a a') (hW : W ⊆ W') : W'.Shares a a' := by
  obtain ⟨k, hk, hmem⟩ := h
  exact ⟨k, hk, hW hmem⟩

/-- The same function, in one scope or the other, with the scopes told between it and the code. -/
structure Closure.Mirrors (T : TwoRuns) (W : World) (between : Layers) (f f' : Closure) : Prop where
  same : f' = { f with scope := f'.scope }
  code : ∃ k : Layers, k.Open ∧ ⟨f.scope, k, f'.scope⟩ ∈ W ∧ f.declaration.Aligned T (between ++ k)

structure Class.Mirrors (T : TwoRuns) (W : World) (c c' : Class) : Prop where
  id : c'.id = c.id
  name : c'.name = c.name
  /-- The scope of `this` is between the class and the code of its methods. -/
  methods : c.methods.Alike (Closure.Mirrors T W [.both]) c'.methods

inductive Value.Mirrors (T : TwoRuns) (W : World) : Value → Value → Prop
  | plain {v : Value} (h : v.Plain) : Value.Mirrors T W v v
  | function {f f' : Closure} (h : f.Mirrors T W [] f') : Value.Mirrors T W (.function f) (.function f')
  | class {c c' : Class} (h : c.Mirrors T W c') : Value.Mirrors T W (.class c) (.class c')
  | instance (id : ObjectId) {c c' : Class} (h : c.Mirrors T W c') :
    Value.Mirrors T W (.instance id c) (.instance id c')

abbrev Cell.Mirrors (T : TwoRuns) (W : World) : Cell → Cell → Prop := Option.Rel (Value.Mirrors T W)

namespace Closure.Mirrors

variable {between : Layers} {f f' : Closure}

theorem grows (h : f.Mirrors T W between f') (hW : W ⊆ W') : f.Mirrors T W' between f' := by
  obtain ⟨k, hk, hmem, hcode⟩ := h.code
  exact ⟨h.same, k, hk, hW hmem, hcode⟩

theorem name_eq (h : f.Mirrors T W between f') : f'.name = f.name := by
  rw [h.same]
  rfl

theorem arity_eq (h : f.Mirrors T W between f') : f'.arity = f.arity := by
  rw [h.same]
  rfl

end Closure.Mirrors

namespace Class.Mirrors

variable {c c' : Class}

theorem grows (h : c.Mirrors T W c') (hW : W ⊆ W') : c.Mirrors T W' c' :=
  ⟨h.id, h.name, h.methods.imp fun _ _ hf => hf.grows hW⟩

theorem initializer? (h : c.Mirrors T W c') :
    Option.Rel (Closure.Mirrors T W [.both]) c.initializer? c'.initializer? := h.methods "init"

theorem arity_eq (h : c.Mirrors T W c') : c'.arity = c.arity := by
  have hi := h.initializer?
  unfold Class.arity
  generalize c.initializer? = x at hi ⊢
  generalize c'.initializer? = y at hi ⊢
  cases hi with
  | some hf => simp [hf.arity_eq]
  | none => rfl

end Class.Mirrors

namespace Value.Mirrors

variable {v v' : Value}

theorem grows (h : v.Mirrors T W v') (hW : W ⊆ W') : v.Mirrors T W' v' := by
  cases h with
  | plain h => exact .plain h
  | function h => exact .function (h.grows hW)
  | «class» h => exact .class (h.grows hW)
  | «instance» id h => exact .instance id (h.grows hW)

/-- Operators tell no difference. -/
theorem same (h : v.Mirrors T W v') : v.Same v' := by
  cases h with
  | plain h => exact .plain h
  | function h => exact .function (by rw [h.same]) h.name_eq
  | «class» h => exact .class h.id h.name
  | «instance» id h => exact .instance id h.name

end Value.Mirrors

/-- What an access comes to is related, or it fails for the same reason. -/
inductive AccessMirrors {α : Type} (R : α → α → Prop) : Except AccessError α → Except AccessError α → Prop
  | error (e : AccessError) : AccessMirrors R (.error e) (.error e)
  | ok {a a' : α} (h : R a a') : AccessMirrors R (.ok a) (.ok a')

structure Store.Mirrors (T : TwoRuns) (W : World) (st st' : Store) : Prop where
  lt : ∀ p ∈ W, p.direct < st.next ∧ p.desugared < st'.next
  /-- Ways outward that meet lead to a scope of both. -/
  outward : ∀ p ∈ W, ∀ d d', p.layers.Meet d d' →
    ∃ a a', st.ancestor? p.direct d = some a ∧ st'.ancestor? p.desugared d' = some a' ∧ W.Shares a a'
  unique : ∀ a a' b b', W.Shares a a' → W.Shares b b' → (a = b ↔ a' = b')
  cell : ∀ a a', W.Shares a a' → ∀ x, Option.Rel (Cell.Mirrors T W) (st.cell? a x) (st'.cell? a' x)
  globals : ⟨Machine.globals, [], Machine.globals⟩ ∈ W
  chain_globals : st.chain Machine.globals = [Machine.globals] ∧ st'.chain Machine.globals = [Machine.globals]

namespace Store

/-- The other store has all that the one has, and perhaps new scopes, without names. -/
structure Adds (st st₁ : Store) : Prop where
  next : st.next ≤ st₁.next
  chain : ∀ s, s < st.next → st₁.chain s = st.chain s
  cell : ∀ s x, st₁.cell? s x = st.cell? s x

theorem Adds.refl (st : Store) : st.Adds st := ⟨Nat.le_refl _, fun _ _ => rfl, fun _ _ => rfl⟩

theorem Adds.child (st : Store) (s : ScopeId) : st.Adds (st.child s).2 where
  next := by simp [Store.child]
  chain := fun _ => chain_addScope_of_lt _
  cell := cell?_addScope _

theorem ancestor?_setCell (st : Store) (s t : ScopeId) (x : String) (cell : Cell) (d : Nat) :
    (st.setCell s x cell).ancestor? t d = st.ancestor? t d := by
  simp [ancestor?]

/-- Outward from a new scope. -/
theorem ancestor?_child (st : Store) (s : ScopeId) (d : Nat) :
    (st.child s).2.ancestor? st.next (d + 1) = st.ancestor? s d := by
  simp [ancestor?, child, chain_addScope_next]

end Store

namespace Store.Mirrors

variable {st st' : Store} {s s' a a' : ScopeId} {k : Layers}

theorem shares_globals (h : st.Mirrors T W st') : W.Shares Machine.globals Machine.globals :=
  ⟨[], by simp [Layers.Open], h.globals⟩

theorem lt_of_shares (h : st.Mirrors T W st') (ha : W.Shares a a') : a < st.next ∧ a' < st'.next := by
  obtain ⟨k, -, hmem⟩ := ha
  exact h.lt _ hmem

theorem isSome_eq (h : st.Mirrors T W st') (ha : W.Shares a a') (x : String) :
    (st'.cell? a' x).isSome = (st.cell? a x).isSome := (h.cell a a' ha x).isSome_eq

theorem holderAt (h : st.Mirrors T W st') (hs : ⟨s, k, s'⟩ ∈ W) {d d' : Nat} (hd : k.Meet d d') (x : String) :
    AccessMirrors W.Shares (st.holderAt s d x) (st'.holderAt s' d' x) := by
  obtain ⟨a, a', ha, ha', hshares⟩ := h.outward _ hs d d' hd
  unfold Store.holderAt
  simp only [ha, ha', h.isSome_eq hshares]
  split
  · exact .ok hshares
  · exact .error _

theorem holder_globals (h : st.Mirrors T W st') (x : String) :
    AccessMirrors W.Shares (st.holder Machine.globals x) (st'.holder Machine.globals x) := by
  unfold Store.holder
  rw [h.chain_globals.1, h.chain_globals.2]
  simp only [Store.nearest?, h.isSome_eq h.shares_globals]
  by_cases hx : (st.cell? Machine.globals x).isSome = true
  · simpa [hx] using .ok h.shares_globals
  · simpa [hx] using .error _

/-- What is read in scopes that have the same names. -/
theorem read (h : st.Mirrors T W st') {r r' : Except AccessError ScopeId} (hr : AccessMirrors W.Shares r r')
    (x : String) : AccessMirrors (Value.Mirrors T W) (r >>= fun a => readCell (st.cell? a x))
      (r' >>= fun a => readCell (st'.cell? a x)) := by
  cases hr with
  | error e => exact .error e
  | @ok a a' ha =>
    have hc := h.cell a a' ha x
    change AccessMirrors _ (readCell (st.cell? a x)) (readCell (st'.cell? a' x))
    generalize st.cell? a x = cell at hc ⊢
    generalize st'.cell? a' x = cell' at hc ⊢
    rcases hc with hc | _
    · rcases hc with hv | _
      · exact .ok hv
      · exact .error _
    · exact .error _

theorem getAt (h : st.Mirrors T W st') (hs : ⟨s, k, s'⟩ ∈ W) {d d' : Nat} (hd : k.Meet d d') (x : String) :
    AccessMirrors (Value.Mirrors T W) (st.getAt s d x) (st'.getAt s' d' x) := h.read (h.holderAt hs hd x) x

theorem get_globals (h : st.Mirrors T W st') (x : String) :
    AccessMirrors (Value.Mirrors T W) (st.get Machine.globals x) (st'.get Machine.globals x) :=
  h.read (h.holder_globals x) x

theorem setCell (h : st.Mirrors T W st') (ha : W.Shares a a') (x : String) {cell cell' : Cell}
    (hc : cell.Mirrors T W cell') : (st.setCell a x cell).Mirrors T W (st'.setCell a' x cell') where
  lt := by simpa using h.lt
  outward := by simpa only [ancestor?_setCell] using h.outward
  unique := h.unique
  cell := by
    intro b b' hb y
    obtain ⟨hlt, hlt'⟩ := h.lt_of_shares ha
    rw [cell?_setCell hlt, cell?_setCell hlt']
    simp only [← h.unique a a' b b' ha hb]
    split
    · exact .some hc
    · exact h.cell b b' hb y
  globals := h.globals
  chain_globals := by simpa using h.chain_globals

/-- A new place. If names may be declared there, it is in scopes that are new in both stores. -/
theorem insert (h : st.Mirrors T W st') {st₁ st₁' : Store} (hg : st.Adds st₁) (hg' : st'.Adds st₁') {p : Standpoint}
    (hlt : p.direct < st₁.next ∧ p.desugared < st₁'.next)
    (ho : ∀ d d', p.layers.Meet d d' → ∃ a a', st₁.ancestor? p.direct d = some a ∧
      st₁'.ancestor? p.desugared d' = some a' ∧ World.Shares (insert p W) a a')
    (hp : p.layers.Open → p.direct = st.next ∧ p.desugared = st'.next) : st₁.Mirrors T (insert p W) st₁' := by
  have hW : W ⊆ Insert.insert p W := Set.subset_insert p W
  have hshares : ∀ a a', World.Shares (Insert.insert p W) a a' →
      (a = st.next ∧ a' = st'.next) ∨ W.Shares a a' := by
    rintro a a' ⟨k, hk, hmem⟩
    rcases Set.mem_insert_iff.1 hmem with rfl | hmem
    · exact .inl (hp hk)
    · exact .inr ⟨k, hk, hmem⟩
  have hglobals := h.lt _ h.globals
  constructor
  case lt =>
    rw [Set.forall_mem_insert]
    refine ⟨hlt, fun q hq => ?_⟩
    obtain ⟨hq, hq'⟩ := h.lt q hq
    exact ⟨Nat.lt_of_lt_of_le hq hg.next, Nat.lt_of_lt_of_le hq' hg'.next⟩
  case outward =>
    rw [Set.forall_mem_insert]
    refine ⟨ho, fun q hq d d' hd => ?_⟩
    obtain ⟨hlt, hlt'⟩ := h.lt q hq
    obtain ⟨a, a', ha, ha', hs⟩ := h.outward q hq d d' hd
    unfold ancestor? at ha ha' ⊢
    rw [hg.chain _ hlt, hg'.chain _ hlt']
    exact ⟨a, a', ha, ha', hs.grows hW⟩
  case unique =>
    intro a a' b b' ha hb
    rcases hshares a a' ha with ⟨rfl, rfl⟩ | ha <;> rcases hshares b b' hb with ⟨rfl, rfl⟩ | hb
    · simp
    · obtain ⟨hlt, hlt'⟩ := h.lt_of_shares hb
      simp [Nat.ne_of_gt hlt, Nat.ne_of_gt hlt']
    · obtain ⟨hlt, hlt'⟩ := h.lt_of_shares ha
      simp [Nat.ne_of_lt hlt, Nat.ne_of_lt hlt']
    · exact h.unique a a' b b' ha hb
  case cell =>
    intro a a' ha x
    rw [hg.cell, hg'.cell]
    rcases hshares a a' ha with ⟨rfl, rfl⟩ | ha
    · rw [cell?_next, cell?_next]
      exact .none
    · exact (h.cell a a' ha x).imp fun _ _ hc => hc.imp fun _ _ hv => hv.grows hW
  case globals => exact hW h.globals
  case chain_globals =>
    rw [hg.chain _ hglobals.1, hg'.chain _ hglobals.2]
    exact h.chain_globals

/-- A new scope in both stores. -/
theorem child (h : st.Mirrors T W st') (hs : ⟨s, k, s'⟩ ∈ W) :
    (st.child s).2.Mirrors T (Insert.insert ⟨st.next, .both :: k, st'.next⟩ W) (st'.child s').2 := by
  refine h.insert (.child st s) (.child st' s') (by simp [Store.child]) ?_ fun _ => ⟨rfl, rfl⟩
  intro d d' hd
  cases hd with
  | here => exact ⟨st.next, st'.next, rfl, rfl, _, Layers.open_both k, Set.mem_insert _ _⟩
  | both hd =>
    obtain ⟨a, a', ha, ha', hshares⟩ := h.outward _ hs _ _ hd
    rw [ancestor?_child, ancestor?_child]
    exact ⟨a, a', ha, ha', hshares.grows (Set.subset_insert _ _)⟩

/-- A new scope that only the direct run makes. -/
theorem childDirect (h : st.Mirrors T W st') (hs : ⟨s, k, s'⟩ ∈ W) :
    (st.child s).2.Mirrors T (Insert.insert ⟨st.next, .direct :: k, s'⟩ W) st' := by
  refine h.insert (.child st s) (.refl st') ⟨by simp [Store.child], (h.lt _ hs).2⟩ ?_ (by simp [Layers.Open])
  intro d d' hd
  cases hd with
  | direct hd =>
    obtain ⟨a, a', ha, ha', hshares⟩ := h.outward _ hs _ _ hd
    rw [ancestor?_child]
    exact ⟨a, a', ha, ha', hshares.grows (Set.subset_insert _ _)⟩

/-- A new scope that only the other run makes. -/
theorem childDesugared (h : st.Mirrors T W st') (hs : ⟨s, k, s'⟩ ∈ W) :
    st.Mirrors T (Insert.insert ⟨s, .desugared :: k, st'.next⟩ W) (st'.child s').2 := by
  refine h.insert (.refl st) (.child st' s') ⟨(h.lt _ hs).1, by simp [Store.child]⟩ ?_ (by simp [Layers.Open])
  intro d d' hd
  cases hd with
  | desugared hd =>
    obtain ⟨a, a', ha, ha', hshares⟩ := h.outward _ hs _ _ hd
    rw [ancestor?_child]
    exact ⟨a, a', ha, ha', hshares.grows (Set.subset_insert _ _)⟩

end Store.Mirrors

structure Machine.Mirrors (T : TwoRuns) (W : World) (m m' : Machine) : Prop where
  store : m.store.Mirrors T W m'.store
  objects : m'.fields.size = m.fields.size
  fields : ∀ o : ObjectId, Option.Rel (NameMap.Alike (Value.Mirrors T W)) m.fields[o]? m'.fields[o]?
  loopDepth : m'.loopDepth = m.loopDepth
  callDepth : m'.callDepth = m.callDepth
  readings : m'.readings = m.readings
  printed : m'.printed = m.printed

namespace Machine.Mirrors

variable {m m' : Machine}

/-- The same objects, after places have been added to what is known. -/
theorem fields_grow (h : m.Mirrors T W m') (hW : W ⊆ W') (o : ObjectId) :
    Option.Rel (NameMap.Alike (Value.Mirrors T W')) m.fields[o]? m'.fields[o]? :=
  (h.fields o).imp fun _ _ hb => hb.imp fun _ _ hv => hv.grows hW

end Machine.Mirrors

/-- Before anything runs, only the scope of the globals is there. -/
def World.initial : World := {⟨Machine.globals, [], Machine.globals⟩}

theorem Machine.initial_mirrors (T : TwoRuns) : Machine.initial.Mirrors T .initial .initial where
  store := by
    have hshares : ∀ a a', World.initial.Shares a a' → a = Machine.globals ∧ a' = Machine.globals := by
      rintro a a' ⟨k, -, hmem⟩
      cases hmem
      exact ⟨rfl, rfl⟩
    constructor
    case lt =>
      rintro _ ⟨⟩
      decide
    case outward =>
      rintro _ ⟨⟩ d d' hd
      cases hd
    case unique =>
      intro a a' b b' ha hb
      obtain ⟨rfl, rfl⟩ := hshares a a' ha
      obtain ⟨rfl, rfl⟩ := hshares b b' hb
      rfl
    case cell =>
      intro a a' ha x
      obtain ⟨rfl, rfl⟩ := hshares a a' ha
      have hlt : Machine.globals < Store.empty.root.2.next := by decide
      rw [Machine.initial, Store.define, Store.cell?_setCell hlt]
      split
      · exact .some (.some (.plain trivial))
      · exact .none
    case globals => rfl
    case chain_globals => exact ⟨rfl, rfl⟩
  objects := rfl
  fields := fun _ => .none
  loopDepth := rfl
  callDepth := rfl
  readings := rfl
  printed := rfl

end LoxLang
