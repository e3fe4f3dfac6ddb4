import LoxLang.Proofs.Run.Correspondence

namespace LoxLang

/-- A computation that tells things on its way. -/
def Telling (ε α : Type) : Type := Machine → Eval.Outcome α × List ε

namespace Telling

variable {ε α β : Type}

instance : Monad (Telling ε) where
  pure a := fun m => (.done a m, [])
  bind x f := fun m =>
    match x m with
    | (.done a m', log) => ((f a m').1, log ++ (f a m').2)
    | (.failed e m', log) => (.failed e m', log)
    | (.exhausted, log) => (.exhausted, log)

/-- The computation without its log. -/
def plain (x : Telling ε α) : Eval α := fun m => (x m).1

/-- A computation that tells nothing. -/
def silent (x : Eval α) : Telling ε α := fun m => (x m, [])

/-- Tell something of the machine. -/
def tell (event : Machine → ε) : Telling ε Unit := fun m => (.done () m, [event m])

/-- A computation whose value is told when it is there. -/
def telling (event : α → Machine → ε) (x : Telling ε α) : Telling ε α := do
  let a ← x
  tell (event a)
  pure a

/-- A computation under a combinator that starts it in the machine told. -/
def under (combinator : Eval α → Eval β) (enter : Machine → Machine) (x : Telling ε α) : Telling ε β :=
  fun m => (combinator x.plain m, (x (enter m)).2)

def inScope (s : ScopeId) : Telling ε α → Telling ε α := under (Eval.inScope s) fun m => { m with scope := s }

def inLoop : Telling ε α → Telling ε α := under Eval.inLoop fun m => { m with loopDepth := m.loopDepth + 1 }

def outsideLoops : Telling ε α → Telling ε α := under Eval.outsideLoops fun m => { m with loopDepth := 0 }

def inCall : Telling ε α → Telling ε α := under Eval.inCall fun m => { m with callDepth := m.callDepth + 1 }

/-- Turns of a loop, at most as many as there is fuel. -/
abbrev turns (condition : Telling ε Bool) (body : Telling ε Flow) (fuel : Nat) : Telling ε Flow :=
  Operations.repeated (silent Eval.exhausted) condition body fuel

/-- The changes, of which nothing is told. -/
def changes : Changes (Telling ε) where
  look := silent
  childScope s := silent (Eval.childScope s)
  define s name value := silent (Eval.define s name value)
  declare s name := silent (Eval.declare s name)
  assign f name value := silent (Eval.assign f name value)
  newObject := silent Eval.newObject
  setField object name value := silent (Eval.setField object name value)
  print line := silent (Eval.print line)

/-- Operations that tell nothing of their own. -/
def operations (setting : Setting) : Operations (Telling ε) where
  toChanges := changes
  readClock := silent (Eval.readClock setting.clock)
  readName _ id name := silent (Eval.readName setting id name)
  assignName id name value := silent (Eval.assignName setting id name value)
  property object cls name := silent (Eval.property object cls name)
  construct _ x := x
  inScope := inScope
  inLoop := inLoop
  outsideLoops := outsideLoops
  inCall arity arguments paren x := do
    silent (Eval.checkCall arity arguments paren)
    inCall x
  turns := turns

/-- The logs of both computations, one after the other; an error or the end of fuel leaves out the second. -/
theorem bind_done {x : Telling ε α} {f : α → Telling ε β} {m m' : Machine} {a : α} {log : List ε}
    (h : x m = (.done a m', log)) : (x >>= f) m = ((f a m').1, log ++ (f a m').2) := by
  simp only [Bind.bind, h]

theorem bind_failed {x : Telling ε α} {f : α → Telling ε β} {m m' : Machine} {e : RuntimeError} {log : List ε}
    (h : x m = (.failed e m', log)) : (x >>= f) m = (.failed e m', log) := by
  simp only [Bind.bind, h]

theorem bind_exhausted {x : Telling ε α} {f : α → Telling ε β} {m : Machine} {log : List ε}
    (h : x m = (.exhausted, log)) : (x >>= f) m = (.exhausted, log) := by
  simp only [Bind.bind, h]

theorem silent_bind (x : Eval α) (f : α → Eval β) :
    (silent x >>= fun a => silent (f a) : Telling ε β) = silent (x >>= f) := by
  funext m
  cases h : x m with
  | done a m' =>
    have hx : (silent x : Telling ε α) m = (.done a m', []) := congrArg (·, []) h
    rw [bind_done hx]
    exact congrArg (·, []) (Eval.bind_done h).symm
  | failed e m' =>
    have hx : (silent x : Telling ε α) m = (.failed e m', []) := congrArg (·, []) h
    rw [bind_failed hx]
    exact congrArg (·, []) (Eval.bind_failed h).symm
  | exhausted =>
    have hx : (silent x : Telling ε α) m = (.exhausted, []) := congrArg (·, []) h
    rw [bind_exhausted hx]
    exact congrArg (·, []) (Eval.bind_exhausted h).symm

/-- Without the log, computations one after another are the plain ones. -/
@[simp]
theorem plain_bind (x : Telling ε α) (f : α → Telling ε β) :
    (x >>= f).plain = x.plain >>= fun a => (f a).plain := by
  funext m
  rcases h : x m with ⟨⟨a, m'⟩ | ⟨e, m'⟩ | _, log⟩
  · rw [Eval.bind_done (show x.plain m = .done a m' from congrArg Prod.fst h)]
    change ((x >>= f) m).1 = (f a m').1
    rw [bind_done h]
  · rw [Eval.bind_failed (show x.plain m = .failed e m' from congrArg Prod.fst h)]
    exact congrArg Prod.fst (bind_failed h)
  · rw [Eval.bind_exhausted (show x.plain m = .exhausted from congrArg Prod.fst h)]
    exact congrArg Prod.fst (bind_exhausted h)

@[simp]
theorem plain_telling (event : α → Machine → ε) (x : Telling ε α) : (telling event x).plain = x.plain := by
  unfold telling
  rw [plain_bind]
  exact Eval.bind_pure x.plain

/-- The computation tells of the plain one. -/
abbrev IsPlain (α : Type) (x : Telling ε α) (y : Eval α) : Prop := x.plain = y

/-- Of the plain computation the other tells nothing. -/
abbrev IsSilent (α : Type) (x : Telling ε α) (y : Eval α) : Prop := x = silent y

theorem isSilent_composes : Composes (IsSilent (ε := ε)) where
  pure _ := rfl
  bind := by
    rintro α β _ y f g rfl h
    rw [funext h]
    exact silent_bind y g
  map := by
    rintro α β _ y f rfl
    exact silent_bind y fun a => pure (f a)

/-- Changes one after another, all of them silent. -/
theorem changes_silent : Changes.Correspond IsSilent (changes (ε := ε)) Eval.changes where
  toComposes := isSilent_composes
  look _ := rfl
  childScope _ := rfl
  define _ _ _ := rfl
  declare _ _ := rfl
  assign _ _ _ := rfl
  newObject := rfl
  setField _ _ _ := rfl
  print _ := rfl

/-- Without the log, nothing is left of the telling. -/
theorem isPlain_composes : Composes (IsPlain (ε := ε)) where
  pure _ := rfl
  bind := by
    rintro α β x _ f g rfl h
    rw [IsPlain, plain_bind]
    exact congrArg _ (funext h)
  map := by
    rintro α β x _ f rfl
    exact plain_bind x fun a => pure (f a)

/-- What tells nothing of its own does what the evaluator does. -/
theorem operations_plain (setting : Setting) :
    Operations.Correspond IsPlain (operations (ε := ε) setting) (Eval.operations setting) where
  toComposes := isPlain_composes
  look _ := rfl
  childScope _ := rfl
  define _ _ _ := rfl
  declare _ _ := rfl
  assign _ _ _ := rfl
  newObject := rfl
  setField _ _ _ := rfl
  print _ := rfl
  readClock := rfl
  readName _ _ _ := rfl
  assignName _ _ _ := rfl
  property _ _ _ := rfl
  construct _ _ _ h := h
  inScope s _ _ h := congrArg (Eval.inScope s) h
  inLoop h := congrArg Eval.inLoop h
  outsideLoops h := congrArg Eval.outsideLoops h
  inCall arity arguments paren x _ := by
    rintro rfl
    exact plain_bind _ _
  turns := by
    rintro condition _ body _ rfl rfl fuel
    change _ = Eval.turns condition.plain body.plain fuel
    rw [Eval.turns_eq_repeated]
    exact isPlain_composes.repeated rfl rfl rfl fuel

end Telling

end LoxLang
