import LoxLang.Value
import LoxLang.Diagnostic

namespace LoxLang

/-- A cell is empty from its declaration to its first assignment. -/
abbrev Cell := Option Value

/-- A scope has cells for names and a chain of scopes around it, fixed when it is made. -/
structure Scope where
  /-- The scopes around this one, the nearest first. -/
  outer : List ScopeId
  cells : NameMap Cell

/-- The scopes made so far. Their cells are reached in two ways: by walking outward to the nearest scope that has the
name, and by counting hops along the chain. -/
structure Store where
  scopes : Array Scope

/-- Why a name has no value. -/
inductive AccessError where
  | undefined
  | uninitialized
deriving DecidableEq, Repr

def AccessError.cause (name : String) : AccessError → RuntimeError.Cause
  | undefined => .undefinedVariable name
  | uninitialized => .uninitializedVariable name

namespace Store

def empty : Store := ⟨#[]⟩

/-- The number that the next scope gets. -/
def next (st : Store) : ScopeId := st.scopes.size

/-- A scope with no cells yet, and its number. -/
def addScope (st : Store) (outer : List ScopeId) : ScopeId × Store :=
  (st.next, { st with scopes := st.scopes.push ⟨outer, .empty⟩ })

/-- The scope itself and the scopes around it, the nearest first. -/
def chain (st : Store) (s : ScopeId) : List ScopeId :=
  s :: ((st.scopes[s]?).map Scope.outer).getD []

/-- A scope with nothing around it. -/
def root (st : Store) : ScopeId × Store := st.addScope []

/-- A scope directly inside another. -/
def child (st : Store) (s : ScopeId) : ScopeId × Store := st.addScope (st.chain s)

def cell? (st : Store) (s : ScopeId) (name : String) : Option Cell :=
  (st.scopes[s]?).bind fun scope => scope.cells.find? name

def setCell (st : Store) (s : ScopeId) (name : String) (cell : Cell) : Store :=
  { st with scopes := st.scopes.modify s fun scope =>
      { scope with cells := scope.cells.set name cell } }

/-- Bind a name in a scope, whether or not it was bound there before. -/
def define (st : Store) (s : ScopeId) (name : String) (value : Value) : Store :=
  st.setCell s name (some value)

/-- Bind a name in a scope without a value. -/
def declare (st : Store) (s : ScopeId) (name : String) : Store :=
  st.setCell s name none

def readCell : Option Cell → Except AccessError Value
  | none => .error .undefined
  | some none => .error .uninitialized
  | some (some value) => .ok value

/-- The scope in which a walk along scopes first meets a name. -/
def nearest? (st : Store) (name : String) : List ScopeId → Option ScopeId
  | [] => none
  | s :: outer => if (st.cell? s name).isSome then some s else st.nearest? name outer

/-- The scope that holds a name, walking outward. -/
def holder (st : Store) (s : ScopeId) (name : String) : Except AccessError ScopeId :=
  match st.nearest? name (st.chain s) with
  | some a => .ok a
  | none => .error .undefined

/-- The scope a number of hops outward. -/
def ancestor? (st : Store) (s : ScopeId) (distance : Nat) : Option ScopeId :=
  (st.chain s)[distance]?

/-- The scope a number of hops outward, which has to hold the name. -/
def holderAt (st : Store) (s : ScopeId) (distance : Nat) (name : String) : Except AccessError ScopeId :=
  match st.ancestor? s distance with
  | none => .error .undefined
  | some a => if (st.cell? a name).isSome then .ok a else .error .undefined

/-- Read a name, walking outward. An empty cell ends the walk. -/
def get (st : Store) (s : ScopeId) (name : String) : Except AccessError Value := do
  let a ← st.holder s name
  readCell (st.cell? a name)

/-- Read a name in the scope a number of hops outward. -/
def getAt (st : Store) (s : ScopeId) (distance : Nat) (name : String) : Except AccessError Value := do
  let a ← st.holderAt s distance name
  readCell (st.cell? a name)

/-- Assign to a name, walking outward. -/
def assign (st : Store) (s : ScopeId) (name : String) (value : Value) : Except AccessError Store := do
  let a ← st.holder s name
  pure (st.define a name value)

/-- Assign to a name in the scope a number of hops outward. -/
def assignAt (st : Store) (s : ScopeId) (distance : Nat) (name : String) (value : Value) :
    Except AccessError Store := do
  let a ← st.holderAt s distance name
  pure (st.define a name value)

/-- The value a name has in this very scope. -/
def getHere? (st : Store) (s : ScopeId) (name : String) : Option Value := (st.cell? s name).join

end Store

end LoxLang
