import LoxLang.Proofs.Run.Frames

namespace LoxLang

/-- The causes of operators are about their operands. -/
theorem Value.unary_cause (operator : Token.Kind) (x : Value) : x.unary operator ≠ .error .breakOutsideLoop := by
  unfold Value.unary
  split
  · split <;> simp
  · simp
  · simp

theorem Value.binary_cause (operator : Token.Kind) (x y : Value) :
    Value.binary operator x y ≠ .error .breakOutsideLoop := by
  unfold Value.binary
  split
  · simp
  · simp
  · unfold Value.add
    split <;> simp
  · split
    · unfold Value.arithmetic
      split
      case h_3 => split <;> simp
      all_goals simp
    · simp

namespace Eval

variable {α β : Type}

/-- The error that a computation ended in. -/
def Outcome.error? : Outcome α → Option RuntimeError
  | .failed e _ => some e
  | _ => none

/-- The computation keeps the frame, and its error is not that of a `break`. -/
structure Steady (x : Eval α) : Prop where
  frame : ∀ m a m', x m = .done a m' → m'.frame = m.frame
  cause : ∀ m, ∀ e ∈ (x m).error?, e.cause ≠ .breakOutsideLoop

theorem steady_pure (a : α) : Steady (pure a) where
  frame := by rintro m _ _ ⟨⟩; rfl
  cause := by rintro m _ ⟨⟩

theorem steady_fail {cause : RuntimeError.Cause} (h : cause ≠ .breakOutsideLoop) (token : Token) :
    Steady (fail cause token : Eval α) where
  frame := by rintro m _ _ ⟨⟩
  cause := by rintro m _ ⟨⟩; exact h

theorem steady_lift {result : Except RuntimeError.Cause α} (h : result ≠ .error .breakOutsideLoop) (token : Token) :
    Steady (lift result token) := by
  cases result with
  | ok a => exact steady_pure a
  | error cause => exact steady_fail (fun hc => h (hc ▸ rfl)) token

theorem steady_read (f : Machine → α) : Steady (read f) where
  frame := by rintro m _ _ ⟨⟩; rfl
  cause := by rintro m _ ⟨⟩

theorem steady_modify {f : Machine → Machine} (h : ∀ m, (f m).frame = m.frame) : Steady (modify f) where
  frame := by rintro m _ _ ⟨⟩; exact h m
  cause := by rintro m _ ⟨⟩

theorem Steady.bind {x : Eval α} {f : α → Eval β} (hx : Steady x) (hf : ∀ a, Steady (f a)) : Steady (x >>= f) where
  frame := by
    intro m b m'' h
    cases hxm : x m with
    | done a m' =>
      rw [bind_done hxm] at h
      exact ((hf a).frame m' b m'' h).trans (hx.frame m a m' hxm)
    | failed e m' => rw [bind_failed hxm] at h; cases h
    | exhausted => rw [bind_exhausted hxm] at h; cases h
  cause := by
    intro m
    cases hxm : x m with
    | done a m' => rw [bind_done hxm]; exact (hf a).cause m'
    | failed e m' =>
      have := hx.cause m
      rw [hxm] at this
      rw [bind_failed hxm]
      exact this
    | exhausted => rw [bind_exhausted hxm]; rintro e ⟨⟩

theorem cause_ne_break (name : String) (e : AccessError) : e.cause name ≠ .breakOutsideLoop := by
  cases e <;> simp [AccessError.cause]

/-- A name that is not found, or has no value, has nothing to do with loops. -/
theorem steady_access (f : Store → Except AccessError Value) (name : Token) : Steady (access f name) where
  frame := by
    intro m a m' h
    unfold access at h
    split at h <;> cases h
    rfl
  cause := by
    intro m
    unfold access
    split
    · rintro _ ⟨⟩
    · next e _ => rintro _ ⟨⟩; exact cause_ne_break _ e

theorem steady_assign (f : Store → Except AccessError ScopeId) (name : Token) (value : Value) :
    Steady (assign f name value) where
  frame := by
    intro m a m' h
    unfold assign at h
    split at h <;> cases h
    rfl
  cause := by
    intro m
    unfold assign
    split
    · rintro _ ⟨⟩
    · next e _ => rintro _ ⟨⟩; exact cause_ne_break _ e

theorem steady_childScope (s : ScopeId) : Steady (childScope s) where
  frame := by rintro m _ _ ⟨⟩; rfl
  cause := by rintro m _ ⟨⟩

theorem steady_newObject : Steady newObject where
  frame := by rintro m _ _ ⟨⟩; rfl
  cause := by rintro m _ ⟨⟩

theorem steady_readClock (clock : Clock) : Steady (readClock clock) where
  frame := by rintro m _ _ ⟨⟩; rfl
  cause := by rintro m _ ⟨⟩

theorem steady_define (s : ScopeId) (name : String) (value : Value) : Steady (define s name value) :=
  steady_modify fun _ => rfl

theorem steady_declare (s : ScopeId) (name : String) : Steady (declare s name) :=
  steady_modify fun _ => rfl

theorem steady_print (line : String) : Steady (print line) := steady_modify fun _ => rfl

theorem steady_setField (object : ObjectId) (name : String) (value : Value) : Steady (setField object name value) :=
  steady_modify fun _ => rfl

theorem steady_readName (setting : Setting) (id : OccurrenceId) (name : Token) : Steady (readName setting id name) := by
  unfold readName
  cases setting.distances[id]? with
  | none => exact steady_access _ name
  | some d => exact (steady_read _).bind fun scope => steady_access _ name

theorem steady_assignName (setting : Setting) (id : OccurrenceId) (name : Token) (value : Value) :
    Steady (assignName setting id name value) := by
  rw [assignName_eq]
  cases setting.distances[id]? with
  | none => exact steady_assign _ name value
  | some d => exact (steady_read _).bind fun scope => steady_assign _ name value

theorem steady_bindThis (method : Closure) (object : Value) : Steady (bindThis method object) :=
  (steady_childScope _).bind fun scope => (steady_define scope _ object).bind fun _ =>
    steady_newObject.bind fun _ => steady_pure _

theorem steady_property (object : ObjectId) (cls : Class) (name : Token) : Steady (property object cls name) := by
  apply (steady_read _).bind
  intro value
  cases value with
  | some value => exact steady_pure value
  | none =>
    dsimp only
    cases cls.methods.find? name.lexeme with
    | none => exact steady_fail (by simp) name
    | some method => exact (steady_bindThis method _).bind fun f => steady_pure _

theorem steady_closures (scope : ScopeId) (fs : List Function) : Steady (closures scope fs) := by
  induction fs with
  | nil => exact steady_pure _
  | cons f fs ih => exact steady_newObject.bind fun _ => ih.bind fun _ => steady_pure _

theorem steady_defineAll (scope : ScopeId) (ps : List Token) (vs : List Value) : Steady (defineAll scope ps vs) := by
  induction ps generalizing vs with
  | nil => exact steady_pure _
  | cons p ps ih =>
    cases vs with
    | nil => exact steady_pure _
    | cons v vs => exact (steady_define scope p.lexeme v).bind fun _ => ih vs

theorem steady_checkCall (arity : Nat) (arguments : List Value) (paren : Token) :
    Steady (checkCall arity arguments paren) := by
  unfold checkCall
  split
  · exact steady_fail (by simp) paren
  · apply (steady_read _).bind
    intro depth
    split
    · exact steady_fail (by simp) paren
    · exact steady_pure _

theorem steady_result (f : Closure) (flow : Flow) : Steady (result f flow) := by
  unfold result
  split
  · exact steady_read _
  · cases flow <;> exact steady_pure _

/-- Whatever value the computation gives is as told. -/
def Gives (x : Eval α) (Q : α → Prop) : Prop := ∀ m a m', x m = .done a m' → Q a

theorem gives_any (x : Eval α) : x.Gives fun _ => True := fun _ _ _ _ => trivial

theorem gives_pure {a : α} {Q : α → Prop} (h : Q a) : Gives (pure a) Q := by
  rintro m _ _ ⟨⟩
  exact h

/-- The last of several computations gives the value. -/
theorem Gives.last {x : Eval α} {f : α → Eval β} {Q : β → Prop} (h : ∀ a, (f a).Gives Q) : (x >>= f).Gives Q := by
  intro m b m'' hb
  cases hxm : x m with
  | done a m' => rw [bind_done hxm] at hb; exact h a m' b m'' hb
  | failed e m' => rw [bind_failed hxm] at hb; cases hb
  | exhausted => rw [bind_exhausted hxm] at hb; cases hb

/-- The statement runs steadily and ends normally. -/
structure Plain (x : Eval Flow) : Prop where
  steady : Steady x
  normal : x.Gives (· = .normal)

theorem plain_bare (name : Token) (setting : Setting) (fuel : Nat) :
    Plain (execute setting (fuel + 1) (.var name none)) where
  steady := (steady_read _).bind fun scope => (steady_declare scope _).bind fun _ => steady_pure _
  normal := .last fun _ => .last fun _ => gives_pure rfl

theorem plain_function (declaration : Function) (setting : Setting) (fuel : Nat) :
    Plain (execute setting (fuel + 1) (.function declaration)) where
  steady := (steady_read _).bind fun scope => steady_newObject.bind fun _ => (steady_define scope _ _).bind fun _ =>
    steady_pure _
  normal := .last fun _ => .last fun _ => .last fun _ => gives_pure rfl

/-- A class is declared without running a statement. -/
theorem plain_class (name : Token) (methods : List Function) (setting : Setting) (fuel : Nat) :
    Plain (execute setting (fuel + 1) (.class name methods)) where
  steady := (steady_read _).bind fun scope => (steady_declare scope _).bind fun _ =>
    (steady_closures scope methods).bind fun _ => steady_newObject.bind fun _ =>
      (steady_assign (·.holder scope name.lexeme) name _).bind fun _ => steady_pure _
  normal := .last fun _ => .last fun _ => .last fun _ => .last fun _ => .last fun _ => gives_pure rfl

end Eval

end LoxLang
