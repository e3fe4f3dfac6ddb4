namespace LoxLang

/-- A finite map from names. -/
structure NameMap (α : Type) where
  entries : List (String × α)
deriving Repr

namespace NameMap

variable {α : Type}

def empty : NameMap α := ⟨[]⟩

/-- The value of the first entry of a name. -/
def findIn (name : String) : List (String × α) → Option α
  | [] => none
  | (n, a) :: rest => if n = name then some a else findIn name rest

/-- Replace the value of the first entry of a name, or add an entry at the end. -/
def setIn (name : String) (value : α) : List (String × α) → List (String × α)
  | [] => [(name, value)]
  | (n, a) :: rest => if n = name then (n, value) :: rest else (n, a) :: setIn name value rest

def find? (b : NameMap α) (name : String) : Option α := findIn name b.entries

def contains (b : NameMap α) (name : String) : Bool := (b.find? name).isSome

def set (b : NameMap α) (name : String) (value : α) : NameMap α := ⟨setIn name value b.entries⟩

/-- Entries set one after another; of two with the same name the later counts. -/
def ofList (entries : List (String × α)) : NameMap α :=
  entries.foldl (fun b e => b.set e.1 e.2) empty

@[simp]
theorem find?_empty (name : String) : (empty : NameMap α).find? name = none := rfl

theorem findIn_setIn (entries : List (String × α)) (name other : String) (value : α) :
    findIn other (setIn name value entries) = if name = other then some value else findIn other entries := by
  induction entries with
  | nil => simp [setIn, findIn]
  | cons e rest ih =>
    by_cases hn : e.1 = name
    · by_cases ho : name = other <;> simp_all [setIn, findIn]
    · by_cases ho : e.1 = other
      · have : name ≠ other := fun h => hn (ho.trans h.symm)
        simp_all [setIn, findIn]
      · simp_all [setIn, findIn]

@[simp]
theorem find?_set (b : NameMap α) (name other : String) (value : α) :
    (b.set name value).find? other = if name = other then some value else b.find? other :=
  findIn_setIn b.entries name other value

end NameMap

end LoxLang
