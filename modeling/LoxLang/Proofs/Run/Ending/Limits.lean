import LoxLang.Proofs.Run.Correspondence

namespace LoxLang.Eval

variable {α β : Type}

/-- The check of a call where any number of calls may be open. -/
def checkArity (arity : Nat) (arguments : List Value) (paren : Token) : Eval Unit :=
  if arguments.length ≠ arity then fail (.wrongArgumentCount arity arguments.length) paren else pure ()

/-- The operations, but for the limit on open calls. -/
def unlimited (setting : Setting) : Operations Eval :=
  { operations setting with
    inCall := fun arity arguments paren x => do
      checkArity arity arguments paren
      inCall x }

/-- The outcome of the one is that of the other, or it is a stack overflow. -/
def OrOverflows (x y : Eval α) : Prop :=
  ∀ m, x m = y m ∨ ∃ line m', x m = .failed ⟨.stackOverflow, line⟩ m'

namespace OrOverflows

theorem refl (x : Eval α) : OrOverflows x x := fun _ => .inl rfl

/-- The same result leads on to the same; after a stack overflow neither goes on. -/
theorem bind {x y : Eval α} {f g : α → Eval β} (h : OrOverflows x y) (hf : ∀ a, OrOverflows (f a) (g a)) :
    OrOverflows (x >>= f) (y >>= g) := by
  intro m
  obtain hx | ⟨line, m', hx⟩ := h m
  · cases hy : y m with
    | done a m' => rw [bind_done (hx.trans hy), bind_done hy]; exact hf a m'
    | failed e m' => rw [bind_failed (hx.trans hy), bind_failed hy]; exact .inl rfl
    | exhausted => rw [bind_exhausted (hx.trans hy), bind_exhausted hy]; exact .inl rfl
  · exact .inr ⟨line, m', bind_failed hx⟩

theorem restoring {x y : Eval α} (h : OrOverflows x y) (restore : Machine → Machine) :
    OrOverflows (restoring restore x) (restoring restore y) := by
  intro m
  unfold Eval.restoring
  obtain hx | ⟨line, m', hx⟩ := h m
  · exact .inl (by rw [hx])
  · exact .inr ⟨line, restore m', by rw [hx]⟩

theorem inScope {x y : Eval α} (h : OrOverflows x y) (s : ScopeId) : OrOverflows (inScope s x) (inScope s y) :=
  fun _ => h.restoring _ _

theorem inLoop {x y : Eval α} (h : OrOverflows x y) : OrOverflows (inLoop x) (inLoop y) :=
  fun _ => h.restoring _ _

theorem outsideLoops {x y : Eval α} (h : OrOverflows x y) : OrOverflows (outsideLoops x) (outsideLoops y) :=
  fun _ => h.restoring _ _

theorem inCall {x y : Eval α} (h : OrOverflows x y) : OrOverflows (inCall x) (inCall y) :=
  fun _ => h.restoring _ _

theorem composes : Composes (fun α (x y : Eval α) => OrOverflows x y) where
  pure _ := refl _
  bind := bind
  map f h := h.bind fun a => refl (pure (f a))

end OrOverflows

/-- A call that is one too many is the only one that the limit refuses. -/
theorem checkCall_orOverflows (arity : Nat) (arguments : List Value) (paren : Token) :
    OrOverflows (checkCall arity arguments paren) (checkArity arity arguments paren) := by
  intro m
  unfold checkCall checkArity
  split
  · exact .inl rfl
  · by_cases hm : maxCallDepth ≤ m.callDepth
    · refine .inr ⟨paren.line, m, ?_⟩
      rw [bind_done (show read Machine.callDepth m = .done m.callDepth m from rfl), if_pos hm]
      rfl
    · refine .inl ?_
      rw [bind_done (show read Machine.callDepth m = .done m.callDepth m from rfl), if_neg hm]

/-- Whatever is done under the limit is done without it, or it is a stack overflow. -/
theorem operations_orOverflow (setting : Setting) :
    Operations.Correspond (fun α (x y : Eval α) => OrOverflows x y) (operations setting) (unlimited setting) where
  toComposes := OrOverflows.composes
  look _ := .refl _
  childScope _ := .refl _
  define _ _ _ := .refl _
  declare _ _ := .refl _
  assign _ _ _ := .refl _
  newObject := .refl _
  setField _ _ _ := .refl _
  print _ := .refl _
  readClock := .refl _
  readName _ _ _ := .refl _
  assignName _ _ _ := .refl _
  property _ _ _ := .refl _
  construct _ _ _ h := h
  inScope s _ _ h := h.inScope s
  inLoop h := h.inLoop
  outsideLoops h := h.outsideLoops
  inCall arity arguments paren _ _ h := (checkCall_orOverflows arity arguments paren).bind fun _ => h.inCall
  turns hc hb fuel := by
    change OrOverflows (turns _ _ fuel) (turns _ _ fuel)
    rw [turns_eq_repeated, turns_eq_repeated]
    exact OrOverflows.composes.repeated (.refl _) hc hb fuel

/-- The statements of a program, with any number of calls open. -/
def runUnlimited (setting : Setting) (fuel : Nat) (program : List Stmt) : Eval Unit :=
  Operations.runAll ((unlimited setting).execute fuel) program

/-- A program does the same under the limit, or it overflows. -/
theorem runAll_orOverflows (setting : Setting) (fuel : Nat) (program : List Stmt) :
    OrOverflows (Interpreter.runAll setting fuel program) (runUnlimited setting fuel program) :=
  OrOverflows.composes.runAll ((operations_orOverflow setting).at fuel).execute program

end LoxLang.Eval
