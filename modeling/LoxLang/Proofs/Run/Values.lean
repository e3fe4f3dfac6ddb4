import LoxLang.Interpreter
import LoxLang.Proofs.Run.Standing

namespace LoxLang
open Scoping

theorem NameMap.find?_foldl_set {α : Type} {entries : List (String × α)} {b : NameMap α} {name : String} {a : α}
    (h : (entries.foldl (fun b e => b.set e.1 e.2) b).find? name = some a) :
    (name, a) ∈ entries ∨ b.find? name = some a := by
  induction entries generalizing b with
  | nil => exact .inr h
  | cons e rest ih =>
    rcases ih h with hr | hb
    · exact .inl (List.mem_cons_of_mem _ hr)
    · rw [NameMap.find?_set] at hb
      split at hb
      · next he =>
        cases hb
        exact .inl (he ▸ List.mem_cons_self)
      · exact .inr hb

theorem NameMap.mem_of_find?_ofList {α : Type} {entries : List (String × α)} {name : String} {a : α}
    (h : (NameMap.ofList entries).find? name = some a) : (name, a) ∈ entries := by
  rcases NameMap.find?_foldl_set h with h | h
  · exact h
  · cases h

variable {S S' : Site → Prop} {st st' : Store} {current : Option ScopeId} {m : Machine}

/-- A function of the programs with the sites told, declared at a place inside of which its body is no longer at the
top level. -/
structure Function.Known (S : Site → Prop) (place : Binding.Place) (c : Context) (f : Function) : Prop where
  sites : ∀ σ ∈ f.sites place c, S σ
  tidy : f.Tidy place c
  formed : f.Formed
  inner : place.body ≠ .topLevel

/-- The scope of the function stands for the place of its declaration. -/
def Closure.Ok (S : Site → Prop) (st : Store) (f : Closure) : Prop :=
  ∃ place, ∃ c : Context, c.initializing = none ∧ st.Realizes f.scope c.frames ∧ f.declaration.Known S place c

/-- As a method, the function lacks the scope of `this`. -/
def Closure.MethodOk (S : Site → Prop) (st : Store) (f : Closure) : Prop :=
  ∃ place, ∃ c : Context, c.initializing = none ∧ st.Realizes f.scope c.frames ∧ f.declaration.Known S place c.inClass

def Class.Ok (S : Site → Prop) (st : Store) (c : Class) : Prop :=
  ∀ name f, c.methods.find? name = some f → f.MethodOk S st

def Value.Ok (S : Site → Prop) (st : Store) : Value → Prop
  | .function f => f.Ok S st
  | .class c => c.Ok S st
  | .instance _ c => c.Ok S st
  | _ => True

def Flow.Ok (S : Site → Prop) (st : Store) : Flow → Prop
  | .return value => value.Ok S st
  | _ => True

structure Machine.Ok (S : Site → Prop) (m : Machine) : Prop where
  cells : ∀ s name v, m.store.cell? s name = some (some v) → v.Ok S m.store
  fields : ∀ (o : ObjectId) fields name v, m.fields[o]? = some fields → fields.find? name = some v → v.Ok S m.store
  globals : m.store.Realizes Machine.globals []

theorem Function.Known.mono {place : Binding.Place} {c : Context} {f : Function} (h : f.Known S place c)
    (hs : ∀ σ, S σ → σ.Inner → S' σ) : f.Known S' place c where
  sites := fun σ hσ => hs σ (h.sites σ hσ) (f.sites_inner h.inner c σ hσ)
  tidy := h.tidy
  formed := h.formed
  inner := h.inner

/-- The functions of a class have their sites among those of the class. -/
theorem Function.Known.of_mem {c : Context} {fs : List Function} {f : Function} (hf : f ∈ fs)
    (hs : ∀ σ ∈ Function.sitesAll c fs, S σ) (ht : Function.TidyAll c fs) (hd : Function.FormedAll fs) :
    f.Known S (Binding.methodPlace f) c := by
  induction fs with
  | nil => cases hf
  | cons g fs ih =>
    rcases List.mem_cons.1 hf with rfl | hf
    · exact ⟨fun σ hσ => hs σ (List.mem_append_left _ hσ), ht.1, hd.1, Binding.methodPlace_body _⟩
    · exact ih hf (fun σ hσ => hs σ (List.mem_append_right _ hσ)) ht.2 hd.2

/-- A function is kept in order while sites and scopes come to it. -/
theorem Closure.Ok.mono {f : Closure} (h : f.Ok S st) (hs : ∀ σ, S σ → σ.Inner → S' σ)
    (hg : Store.Grows current st st') :
    f.Ok S' st' := by
  obtain ⟨place, c, hi, hr, hk⟩ := h
  exact ⟨place, c, hi, hr.grows hg, hk.mono hs⟩

theorem Closure.MethodOk.mono {f : Closure} (h : f.MethodOk S st) (hs : ∀ σ, S σ → σ.Inner → S' σ)
    (hg : Store.Grows current st st') : f.MethodOk S' st' := by
  obtain ⟨place, c, hi, hr, hk⟩ := h
  exact ⟨place, c, hi, hr.grows hg, hk.mono hs⟩

theorem Class.Ok.mono {c : Class} (h : c.Ok S st) (hs : ∀ σ, S σ → σ.Inner → S' σ) (hg : Store.Grows current st st') :
    c.Ok S' st' := fun name f hf => (h name f hf).mono hs hg

theorem Value.Ok.mono {v : Value} (h : v.Ok S st) (hs : ∀ σ, S σ → σ.Inner → S' σ) (hg : Store.Grows current st st') :
    v.Ok S' st' := by
  cases v with
  | function f => exact Closure.Ok.mono h hs hg
  | «class» c | «instance» _ c => exact Class.Ok.mono h hs hg
  | _ => trivial

theorem Value.Ok.grows {v : Value} (h : v.Ok S st) (hg : Store.Grows current st st') : v.Ok S st' :=
  h.mono (fun _ hσ _ => hσ) hg

/-- The value is not a function and has none. -/
def Value.Plain : Value → Prop
  | .function _ | .class _ | .instance _ _ => False
  | _ => True

theorem Value.Plain.ok {v : Value} (h : v.Plain) : v.Ok S st := by
  cases v with
  | function | «class» | «instance» => cases h
  | _ => trivial

theorem Literal.value_plain (l : Literal) : l.value.Plain := by
  cases l <;> trivial

theorem Value.unary_plain {operator : Token.Kind} {x v : Value} (h : x.unary operator = .ok v) : v.Plain := by
  unfold Value.unary at h
  split at h
  · split at h <;> cases h
    trivial
  · cases h
    trivial
  · cases h

theorem Value.add_plain {x y v : Value} (h : x.add y = .ok v) : v.Plain := by
  unfold Value.add at h
  split at h <;> cases h <;> trivial

theorem Value.arithmetic_plain {operator : Token.Kind} {x y : Number} {v : Value}
    (h : Value.arithmetic operator x y = .ok v) : v.Plain := by
  unfold Value.arithmetic at h
  split at h <;> first | (cases h; trivial) | skip
  · split at h <;> cases h
    trivial
  · cases h

/-- Operators make no functions. -/
theorem Value.binary_plain {operator : Token.Kind} {x y v : Value} (h : Value.binary operator x y = .ok v) :
    v.Plain := by
  unfold Value.binary at h
  split at h
  · cases h
    trivial
  · cases h
    trivial
  · exact Value.add_plain h
  · split at h
    · exact Value.arithmetic_plain h
    · cases h

namespace Machine.Ok

theorem mono (h : m.Ok S) (hs : ∀ σ, S σ → σ.Inner → S' σ) : m.Ok S' where
  cells := fun s name v hv => (h.cells s name v hv).mono hs (.refl none _)
  fields := fun o fields name v hf hv => (h.fields o fields name v hf hv).mono hs (.refl none _)
  globals := h.globals

/-- The one native has no place of declaration. -/
theorem initial (S : Site → Prop) : Machine.initial.Ok S where
  cells := by
    intro s name v hv
    have hlt : Machine.globals < Store.empty.root.2.next := by decide
    rw [Machine.initial, Store.define, Store.cell?_setCell hlt] at hv
    split at hv
    · cases hv
      trivial
    · rw [Store.root, Store.cell?_addScope] at hv
      cases hv
  fields := by simp [Machine.initial]
  globals := .globals (by decide) rfl

/-- A store grown without a new value. -/
theorem store (h : m.Ok S) (hg : Store.Grows current m.store st)
    (hc : ∀ s name v, st.cell? s name = some (some v) → m.store.cell? s name = some (some v)) :
    { m with store := st }.Ok S where
  cells := fun s name v hv => (h.cells s name v (hc s name v hv)).grows hg
  fields := fun o fields name v hf hv => (h.fields o fields name v hf hv).grows hg
  globals := h.globals.grows hg

theorem child (h : m.Ok S) (s : ScopeId) : { m with store := (m.store.child s).2 }.Ok S :=
  h.store (.addScope none m.store _) fun _ _ _ hv => by simpa [Store.child] using hv

theorem define {s : ScopeId} {name : String} {v : Value} (h : m.Ok S) (hs : s < m.store.next)
    (hg : Store.Grows current m.store (m.store.define s name v)) (hv : v.Ok S (m.store.define s name v)) :
    { m with store := m.store.define s name v }.Ok S where
  cells := by
    intro t other w hw
    dsimp only at hw ⊢
    rw [Store.define, Store.cell?_setCell hs] at hw
    split at hw
    · cases hw
      exact hv
    · exact (h.cells t other w hw).grows hg
  fields := fun o fields name w hf hw => (h.fields o fields name w hf hw).grows hg
  globals := h.globals.grows hg

theorem declare {s : ScopeId} {name : String} (h : m.Ok S) (hs : s < m.store.next)
    (hg : Store.Grows current m.store (m.store.declare s name)) :
    { m with store := m.store.declare s name }.Ok S := by
  refine h.store hg fun t other v hv => ?_
  rw [Store.declare, Store.cell?_setCell hs] at hv
  split at hv
  · cases hv
  · exact hv

theorem newObject (h : m.Ok S) : { m with fields := m.fields.push .empty }.Ok S where
  cells := h.cells
  fields := by
    intro o fields name v hf hv
    dsimp only at hf
    rw [Array.getElem?_push] at hf
    split at hf
    · cases hf
      cases hv
    · exact h.fields o fields name v hf hv
  globals := h.globals

theorem setField {object : ObjectId} {name : String} {v : Value} (h : m.Ok S) (hv : v.Ok S m.store) :
    { m with fields := m.fields.modify object fun fields => fields.set name v }.Ok S where
  cells := h.cells
  fields := by
    intro o fields other w hf hw
    dsimp only at hf
    rw [Array.getElem?_modify] at hf
    split at hf
    · cases hm : m.fields[o]? with
      | none => rw [hm] at hf; cases hf
      | some old =>
        rw [hm] at hf
        cases hf
        rw [NameMap.find?_set] at hw
        split at hw
        · cases hw
          exact hv
        · exact h.fields o old other w hm hw
    · exact h.fields o fields other w hf hw
  globals := h.globals

end Machine.Ok

end LoxLang
