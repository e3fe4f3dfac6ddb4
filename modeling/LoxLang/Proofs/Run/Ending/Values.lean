import LoxLang.Proofs.Run.Receivers.Values

namespace LoxLang

mutual

/-- There is no loop in the statement, nor in a function declared inside it. -/
def Stmt.loopFree : Stmt → Bool
  | .block body => Stmt.loopFreeAll body
  | .branch _ thenBranch none => thenBranch.loopFree
  | .branch _ thenBranch (some elseBranch) => thenBranch.loopFree && elseBranch.loopFree
  | .loop _ _ => false
  | .function declaration => declaration.loopFree
  | .class _ methods => Function.loopFreeAll methods
  | _ => true

def Stmt.loopFreeAll : List Stmt → Bool
  | [] => true
  | s :: ss => s.loopFree && Stmt.loopFreeAll ss

def Function.loopFree : Function → Bool
  | .mk _ _ body => Stmt.loopFreeAll body

def Function.loopFreeAll : List Function → Bool
  | [] => true
  | f :: fs => f.loopFree && Function.loopFreeAll fs

end

theorem Function.body_loopFree {f : Function} (h : f.loopFree) : Stmt.loopFreeAll f.body := by
  cases f
  exact h

mutual

/-- The scopes that a program can come to. -/
inductive Machine.Reaches (m : Machine) : ScopeId → Prop where
  | globals : m.Reaches globals
  | current : m.Reaches m.scope
  | outer {s t : ScopeId} : m.Reaches s → t ∈ m.store.chain s → m.Reaches t
  | closure {f : Closure} : m.Stores (.function f) → m.Reaches f.scope

/-- The values stored where a program can come to. A method counts as the function that it is. -/
inductive Machine.Stores (m : Machine) : Value → Prop where
  | cell {s : ScopeId} {name : String} {v : Value} : m.Reaches s → m.store.cell? s name = some (some v) → m.Stores v
  | field {id : ObjectId} {c : Class} {fields : NameMap Value} {name : String} {v : Value} :
    m.Stores (.instance id c) → m.fields[id]? = some fields → fields.find? name = some v → m.Stores v
  | class {id : ObjectId} {c : Class} : m.Stores (.instance id c) → m.Stores (.class c)
  | method {c : Class} {name : String} {f : Closure} :
    m.Stores (.class c) → c.methods.find? name = some f → m.Stores (.function f)

end

/-- Some scopes and objects. -/
structure Region where
  scope : ScopeId → Prop
  object : ObjectId → Prop

variable {R : Region} {m : Machine} {d : Nat}

/-- The function is loop-free, and its scope is in the region. -/
structure Closure.Within (R : Region) (f : Closure) : Prop where
  loopFree : f.declaration.loopFree
  scope : R.scope f.scope

def Class.Within (R : Region) (c : Class) : Prop :=
  ∀ name method, c.methods.find? name = some method → method.Within R

/-- All that can be come to from the value is in the region, and its functions are loop-free. -/
def Value.Within (R : Region) : Value → Prop
  | .function f => f.Within R
  | .class c => c.Within R
  | .instance id c => R.object id ∧ c.Within R
  | _ => True

def Flow.Within (R : Region) : Flow → Prop
  | .return value => value.Within R
  | _ => True

theorem Value.Plain.within {v : Value} (h : v.Plain) : v.Within R := by
  cases v with
  | function | «class» | «instance» => cases h
  | _ => trivial

namespace Machine

/-- The machine keeps to the region, with so many calls open. All scopes and objects to come are in it. -/
structure Within (R : Region) (d : Nat) (m : Machine) : Prop where
  globals : R.scope globals
  scope : R.scope m.scope
  outer : ∀ s t, R.scope s → t ∈ m.store.chain s → R.scope t
  cells : ∀ s name v, R.scope s → m.store.cell? s name = some (some v) → v.Within R
  fields : ∀ (id : ObjectId) fields name v, R.object id → m.fields[id]? = some fields → fields.find? name = some v →
    v.Within R
  next : ∀ s, m.store.next ≤ s → R.scope s
  fresh : ∀ id, m.fields.size ≤ id → R.object id
  depth : m.callDepth = d

/-- What a program can come to, with the scopes and objects to come. -/
def region (m : Machine) : Region where
  scope := fun s => m.Reaches s ∨ m.store.next ≤ s
  object := fun id => (∃ c, m.Stores (.instance id c)) ∨ m.fields.size ≤ id

/-- A value that is stored can be come to with all that can be come to from it. -/
theorem Stores.within (h : ∀ f, m.Stores (.function f) → f.declaration.loopFree) {v : Value} (hv : m.Stores v) :
    v.Within m.region := by
  have hclosure : ∀ f, m.Stores (.function f) → f.Within m.region := fun f hf => ⟨h f hf, .inl (.closure hf)⟩
  cases v with
  | function f => exact hclosure f hv
  | «class» c => exact fun name method hm => hclosure method (.method hv hm)
  | «instance» id c => exact ⟨.inl ⟨c, hv⟩, fun name method hm => hclosure method (.method (.class hv) hm)⟩
  | _ => trivial

/-- A machine keeps to what can be come to. -/
theorem within_region (h : ∀ f, m.Stores (.function f) → f.declaration.loopFree) : m.Within m.region m.callDepth where
  globals := .inl .globals
  scope := .inl .current
  outer := by
    rintro s t (hs | hs) ht
    · exact .inl (.outer hs ht)
    · rw [Store.chain, Array.getElem?_eq_none hs] at ht
      obtain rfl := List.mem_singleton.1 ht
      exact .inr hs
  cells := by
    rintro s name v (hs | hs) hv
    · exact (Stores.cell hs hv).within h
    · rw [Store.cell?, Array.getElem?_eq_none hs] at hv
      cases hv
  fields := by
    rintro id fields name v (⟨c, hc⟩ | hid) hf hv
    · exact (Stores.field hc hf hv).within h
    · rw [Array.getElem?_eq_none hid] at hf
      cases hf
  next := fun s hs => .inr hs
  fresh := fun id hid => .inr hid
  depth := rfl

end Machine

namespace Store

variable {st : Store} {s t a : ScopeId} {name other : String}

/-- A value in a cell is one that was there before, or the one just put. -/
theorem cell_of_setCell {cell : Cell} {v : Value} (h : (st.setCell s name cell).cell? t other = some (some v)) :
    cell = some v ∨ st.cell? t other = some (some v) := by
  by_cases hs : s < st.next
  · rw [cell?_setCell hs] at h
    split at h
    · exact .inl (Option.some.inj h)
    · exact .inr h
  · have hsame : (st.setCell s name cell).cell? t other = st.cell? t other := by
      unfold cell? setCell
      rw [Array.getElem?_modify]
      split
      · next he =>
        subst he
        rw [Array.getElem?_eq_none (Nat.le_of_not_lt hs)]
        rfl
      · rfl
    exact .inr (hsame ▸ h)

/-- A new scope leads nowhere else than its outer one. -/
theorem mem_chain_child (h : t ∈ (st.child s).2.chain a) : t ∈ st.chain a ∨ t ∈ st.chain s := by
  by_cases ha : a = st.next
  · subst ha
    rw [child, chain_addScope_next] at h
    obtain rfl | h := List.mem_cons.1 h
    · exact .inl List.mem_cons_self
    · exact .inr h
  · left
    have hsame : (st.child s).2.chain a = st.chain a := by
      unfold child addScope
      rw [chain, Array.getElem?_push, if_neg (show a ≠ st.scopes.size from ha)]
      rfl
    rwa [hsame] at h

end Store

namespace Machine.Within

variable {s : ScopeId} {name : String}

/-- Nothing but cells, fields, the scope and the open calls counts. -/
theorem of_eq {m' : Machine} {d' : Nat} (h : m.Within R d) (hs : m'.store = m.store) (hf : m'.fields = m.fields)
    (hscope : R.scope m'.scope) (hdepth : m'.callDepth = d') : m'.Within R d' := by
  obtain ⟨hglobals, -, houter, hcells, hfields, hnext, hfresh, -⟩ := h
  rw [← hs] at houter hcells hnext
  rw [← hf] at hfields hfresh
  exact ⟨hglobals, hscope, houter, hcells, hfields, hnext, hfresh, hdepth⟩

theorem setCell {cell : Cell} (h : m.Within R d) (hc : ∀ v, cell = some v → v.Within R) :
    { m with store := m.store.setCell s name cell }.Within R d where
  globals := h.globals
  scope := h.scope
  outer := fun t a ht ha => h.outer t a ht (by simpa using ha)
  cells := fun t other v ht hv => (Store.cell_of_setCell hv).elim (hc v) (h.cells t other v ht)
  fields := h.fields
  next := fun t ht => h.next t (by simpa using ht)
  fresh := h.fresh
  depth := h.depth

theorem child (h : m.Within R d) (hs : R.scope s) : { m with store := (m.store.child s).2 }.Within R d where
  globals := h.globals
  scope := h.scope
  outer := fun t a ht ha => (Store.mem_chain_child ha).elim (h.outer t a ht) (h.outer s a hs)
  cells := fun t other v ht hv => h.cells t other v ht (by simpa [Store.child] using hv)
  fields := h.fields
  next := fun t ht => h.next t (Nat.le_of_succ_le (by simpa [Store.child] using ht))
  fresh := h.fresh
  depth := h.depth

theorem newObject (h : m.Within R d) : { m with fields := m.fields.push .empty }.Within R d where
  globals := h.globals
  scope := h.scope
  outer := h.outer
  cells := h.cells
  fields := fun id fields name v hid hf hv => h.fields id fields name v hid (field_of_newObject hf hv) hv
  next := h.next
  fresh := fun id hid => h.fresh id (Nat.le_of_succ_le (by simpa using hid))
  depth := h.depth

theorem setField {object : ObjectId} {x : Value} (h : m.Within R d) (hx : x.Within R) :
    { m with fields := m.fields.modify object fun fields => fields.set name x }.Within R d where
  globals := h.globals
  scope := h.scope
  outer := h.outer
  cells := h.cells
  fields := by
    intro id fields other v hid hf hv
    obtain rfl | ⟨old, hold, hv⟩ := field_of_setField hf hv
    · exact hx
    · exact h.fields id old other v hid hold hv
  next := h.next
  fresh := fun id hid => h.fresh id (by simpa using hid)
  depth := h.depth

end Machine.Within

end LoxLang
