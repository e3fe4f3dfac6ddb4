import LoxLang.Eval.Basic
import LoxLang.Proofs.Tree.Relabel

namespace LoxLang

namespace NameMap

variable {α β : Type}

/-- The same names with other values. -/
def map (f : α → β) (b : NameMap α) : NameMap β := ⟨b.entries.map fun e => (e.1, f e.2)⟩

theorem findIn_map (f : α → β) (name : String) (entries : List (String × α)) :
    findIn name (entries.map fun e => (e.1, f e.2)) = (findIn name entries).map f := by
  induction entries with
  | nil => rfl
  | cons e entries ih =>
    rw [List.map_cons, findIn, findIn, ih]
    split <;> rfl

theorem setIn_map (f : α → β) (name : String) (value : α) (entries : List (String × α)) :
    setIn name (f value) (entries.map fun e => (e.1, f e.2)) =
      (setIn name value entries).map fun e => (e.1, f e.2) := by
  induction entries with
  | nil => rfl
  | cons e entries ih =>
    rw [List.map_cons, setIn, setIn, ih]
    split <;> rfl

@[simp]
theorem find?_map (f : α → β) (b : NameMap α) (name : String) : (b.map f).find? name = (b.find? name).map f :=
  findIn_map f name b.entries

theorem set_map (f : α → β) (b : NameMap α) (name : String) (value : α) :
    (b.map f).set name (f value) = (b.set name value).map f :=
  congrArg NameMap.mk (setIn_map f name value b.entries)

theorem ofList_map (f : α → β) (entries : List (String × α)) :
    ofList (entries.map fun e => (e.1, f e.2)) = (ofList entries).map f := by
  have hfold : ∀ b : NameMap α, (entries.map fun e => (e.1, f e.2)).foldl (fun b e => b.set e.1 e.2) (b.map f) =
      (entries.foldl (fun b e => b.set e.1 e.2) b).map f := by
    induction entries with
    | nil => intro b; rfl
    | cons e entries ih =>
      intro b
      rw [List.map_cons, List.foldl_cons, List.foldl_cons, set_map, ih]
  exact hfold empty

end NameMap

variable (line : Nat → Nat) (ident : OccurrenceId → OccurrenceId)

def Closure.relabel (f : Closure) : Closure := { f with declaration := f.declaration.relabel line ident }

def Class.relabel (c : Class) : Class := { c with methods := c.methods.map (Closure.relabel line ident) }

def Value.relabel : Value → Value
  | .function f => .function (f.relabel line ident)
  | .class c => .class (c.relabel line ident)
  | .instance id c => .instance id (c.relabel line ident)
  | v => v

def Flow.relabel : Flow → Flow
  | .return value => .return (value.relabel line ident)
  | flow => flow

def Scope.relabel (s : Scope) : Scope := { s with cells := s.cells.map (Option.map (Value.relabel line ident)) }

def Store.relabel (st : Store) : Store := ⟨st.scopes.map (Scope.relabel line ident)⟩

def RuntimeError.relined (e : RuntimeError) : RuntimeError := { e with line := line e.line }

/-- The machine with its functions relabelled and with other lines printed before its own. -/
def Machine.moved (before : Array String) (m : Machine) : Machine :=
  { m with
    store := m.store.relabel line ident
    fields := m.fields.map (NameMap.map (Value.relabel line ident))
    printed := before ++ m.printed }

variable {line ident}

@[simp]
theorem Function.relabel_name (f : Function) : (f.relabel line ident).name = f.name.relined line := by
  cases f
  rfl

@[simp]
theorem Function.relabel_parameters (f : Function) :
    (f.relabel line ident).parameters = f.parameters.map (Token.relined line) := by
  cases f
  rfl

@[simp]
theorem Function.relabel_isInitializer (f : Function) : (f.relabel line ident).isInitializer = f.isInitializer := by
  cases f
  rfl

@[simp]
theorem Closure.relabel_arity (f : Closure) : (f.relabel line ident).arity = f.arity := by
  simp [Closure.arity, Closure.relabel]

@[simp]
theorem Class.relabel_initializer? (c : Class) :
    (c.relabel line ident).initializer? = c.initializer?.map (Closure.relabel line ident) :=
  NameMap.find?_map _ c.methods "init"

@[simp]
theorem Class.relabel_arity (c : Class) : (c.relabel line ident).arity = c.arity := by
  unfold Class.arity
  rw [Class.relabel_initializer?]
  cases c.initializer? with
  | none => rfl
  | some f => simp

namespace Value

/-- The text of a function has its name, and no line. -/
@[simp]
theorem relabel_display (v : Value) : (v.relabel line ident).display = v.display := by
  cases v with
  | function f => simp [relabel, display, Closure.name, Closure.relabel]
  | _ => rfl

@[simp]
theorem relabel_isTruthy (v : Value) : (v.relabel line ident).isTruthy = v.isTruthy := by
  cases v <;> rfl

/-- Functions are the same by the identity of the object and not of their occurrences. -/
@[simp]
theorem relabel_equals (v w : Value) : (v.relabel line ident).equals (w.relabel line ident) = v.equals w := by
  cases v <;> cases w <;> rfl

@[simp]
theorem relabel_literal (l : Literal) : l.value.relabel line ident = l.value := by
  cases l <;> rfl

theorem unary_relabel (operator : Token.Kind) (v : Value) :
    (v.relabel line ident).unary operator = (v.unary operator).map (relabel line ident) := by
  unfold unary
  split
  · cases v <;> rfl
  · rw [relabel_isTruthy]
    rfl
  · rfl

theorem add_relabel (v w : Value) :
    (v.relabel line ident).add (w.relabel line ident) = (v.add w).map (relabel line ident) := by
  have hv : (v.relabel line ident).display = v.display := relabel_display v
  have hw : (w.relabel line ident).display = w.display := relabel_display w
  cases v <;> cases w <;> first | rfl | simp_all [add, relabel, Except.map]

theorem arithmetic_relabel (operator : Token.Kind) (x y : Number) :
    arithmetic operator x y = (arithmetic operator x y).map (relabel line ident) := by
  unfold arithmetic
  split <;> first | rfl | skip
  split <;> rfl

/-- Operators go by kinds and contents of values, which relabelling leaves alone. -/
theorem binary_relabel (operator : Token.Kind) (v w : Value) :
    binary operator (v.relabel line ident) (w.relabel line ident) = (binary operator v w).map (relabel line ident) := by
  unfold binary
  split
  · rw [relabel_equals]
    rfl
  · rw [relabel_equals]
    rfl
  · exact add_relabel v w
  · cases v with
    | number x =>
      cases w with
      | number y => exact arithmetic_relabel _ x y
      | _ => rfl
    | _ => cases w <;> rfl

end Value

namespace Store

@[simp]
theorem relabel_next (st : Store) : (st.relabel line ident).next = st.next := Array.size_map

@[simp]
theorem relabel_chain (st : Store) (s : ScopeId) : (st.relabel line ident).chain s = st.chain s := by
  unfold chain relabel
  rw [Array.getElem?_map]
  cases st.scopes[s]? <;> rfl

@[simp]
theorem relabel_cell? (st : Store) (s : ScopeId) (name : String) :
    (st.relabel line ident).cell? s name = (st.cell? s name).map (Option.map (Value.relabel line ident)) := by
  unfold cell? relabel
  rw [Array.getElem?_map]
  cases st.scopes[s]? with
  | none => rfl
  | some scope => exact NameMap.find?_map _ scope.cells name

@[simp]
theorem relabel_nearest? (st : Store) (name : String) (chain : List ScopeId) :
    (st.relabel line ident).nearest? name chain = st.nearest? name chain := by
  induction chain with
  | nil => rfl
  | cons s outer ih => simp [nearest?, ih]

/-- Where a name is held has nothing to do with the values. -/
@[simp]
theorem relabel_holder (st : Store) (s : ScopeId) (name : String) :
    (st.relabel line ident).holder s name = st.holder s name := by
  simp [holder]

@[simp]
theorem relabel_ancestor? (st : Store) (s : ScopeId) (distance : Nat) :
    (st.relabel line ident).ancestor? s distance = st.ancestor? s distance := by
  simp [ancestor?]

@[simp]
theorem relabel_holderAt (st : Store) (s : ScopeId) (distance : Nat) (name : String) :
    (st.relabel line ident).holderAt s distance name = st.holderAt s distance name := by
  simp [holderAt]

theorem readCell_relabel (cell : Option Cell) :
    readCell (cell.map (Option.map (Value.relabel line ident))) = (readCell cell).map (Value.relabel line ident) := by
  rcases cell with _ | _ | v <;> rfl

theorem relabel_get (st : Store) (s : ScopeId) (name : String) :
    (st.relabel line ident).get s name = (st.get s name).map (Value.relabel line ident) := by
  unfold get
  rw [relabel_holder]
  cases st.holder s name with
  | error e => rfl
  | ok a =>
    change readCell ((st.relabel line ident).cell? a name) = (readCell (st.cell? a name)).map _
    rw [relabel_cell?, readCell_relabel]

theorem relabel_getAt (st : Store) (s : ScopeId) (distance : Nat) (name : String) :
    (st.relabel line ident).getAt s distance name = (st.getAt s distance name).map (Value.relabel line ident) := by
  unfold getAt
  rw [relabel_holderAt]
  cases st.holderAt s distance name with
  | error e => rfl
  | ok a =>
    change readCell ((st.relabel line ident).cell? a name) = (readCell (st.cell? a name)).map _
    rw [relabel_cell?, readCell_relabel]

theorem relabel_getHere? (st : Store) (s : ScopeId) (name : String) :
    (st.relabel line ident).getHere? s name = (st.getHere? s name).map (Value.relabel line ident) := by
  unfold getHere?
  rw [relabel_cell?]
  rcases st.cell? s name with _ | _ | v <;> rfl

theorem relabel_setCell (st : Store) (s : ScopeId) (name : String) (cell : Cell) :
    (st.relabel line ident).setCell s name (cell.map (Value.relabel line ident)) =
      (st.setCell s name cell).relabel line ident := by
  unfold setCell relabel
  congr 1
  apply Array.ext_getElem?
  intro i
  rw [Array.getElem?_modify, Array.getElem?_map, Array.getElem?_map, Array.getElem?_modify]
  cases st.scopes[i]? with
  | none => split <;> rfl
  | some scope =>
    split
    · exact congrArg some (congrArg (Scope.mk scope.outer) (NameMap.set_map _ scope.cells name cell))
    · rfl

theorem relabel_define (st : Store) (s : ScopeId) (name : String) (value : Value) :
    (st.relabel line ident).define s name (value.relabel line ident) = (st.define s name value).relabel line ident :=
  relabel_setCell st s name (some value)

theorem relabel_declare (st : Store) (s : ScopeId) (name : String) :
    (st.relabel line ident).declare s name = (st.declare s name).relabel line ident :=
  relabel_setCell st s name none

theorem relabel_child (st : Store) (s : ScopeId) :
    (st.relabel line ident).child s = ((st.child s).1, (st.child s).2.relabel line ident) := by
  unfold child addScope
  rw [relabel_chain, relabel_next]
  simp [relabel, Scope.relabel, NameMap.map, NameMap.empty]

end Store

namespace Machine

theorem initial_moved (line : Nat → Nat) (ident : OccurrenceId → OccurrenceId) :
    Machine.initial.moved line ident #[] = .initial := by
  have hroot : Store.empty.root.2.relabel line ident = Store.empty.root.2 := by
    simp [Store.relabel, Store.root, Store.addScope, Store.empty, Scope.relabel, NameMap.map, NameMap.empty]
  have hstore : Machine.initial.store.relabel line ident = Machine.initial.store := by
    unfold Machine.initial
    rw [← Store.relabel_define, hroot]
    rfl
  unfold moved
  rw [hstore]
  simp [Machine.initial]

/-- What has been printed may be taken first or stay in front. -/
theorem moved_untaken (line : Nat → Nat) (ident : OccurrenceId → OccurrenceId) (m : Machine) :
    moved line ident m.printed { m with printed := #[] } = m.moved line ident #[] := by
  simp [moved]

theorem moved_taken (line : Nat → Nat) (ident : OccurrenceId → OccurrenceId) (m : Machine) :
    moved line ident #[] { m with printed := #[] } = { m.moved line ident #[] with printed := #[] } := by
  simp [moved]

end Machine

end LoxLang
