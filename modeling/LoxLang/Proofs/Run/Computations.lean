import LoxLang.Interpreter

namespace LoxLang

/-- A clock that is later each time it is asked. -/
def Clock.ticking : Clock := fun k => ⟨.ofNat k⟩

namespace Eval

variable {α β : Type}

/-- The machine in which a computation ended. -/
def Outcome.machine? : Outcome α → Option Machine
  | .done _ m | .failed _ m => some m
  | .exhausted => none

/-- After a computation that ended the next one goes on with its result and machine, and after one that failed or ran
out of fuel there is no next. -/
theorem bind_done {x : Eval α} {f : α → Eval β} {m m' : Machine} {a : α} (h : x m = .done a m') :
    (x >>= f) m = f a m' := by
  simp only [Bind.bind, h]

theorem bind_failed {x : Eval α} {f : α → Eval β} {m m' : Machine} {e : RuntimeError}
    (h : x m = .failed e m') : (x >>= f) m = .failed e m' := by
  simp only [Bind.bind, h]

theorem bind_exhausted {x : Eval α} {f : α → Eval β} {m : Machine} (h : x m = .exhausted) :
    (x >>= f) m = .exhausted := by
  simp only [Bind.bind, h]

theorem restoring_exhausted {x : Eval α} {restore : Machine → Machine} {m : Machine} (h : x m = .exhausted) :
    restoring restore x m = .exhausted := by
  simp only [restoring, h]

/-- The machine that an inner computation has left, with what it changed put back. -/
theorem machine?_restoring (restore : Machine → Machine) (x : Eval α) (m : Machine) :
    (restoring restore x m).machine? = (x m).machine?.map restore := by
  unfold restoring
  cases x m <;> rfl

theorem pure_apply (a : α) (m : Machine) : (pure a : Eval α) m = .done a m := rfl

theorem bind_assoc {γ : Type} (x : Eval α) (f : α → Eval β) (g : β → Eval γ) :
    x >>= f >>= g = x >>= fun a => f a >>= g := by
  funext m
  cases hx : x m with
  | done a m' =>
    rw [bind_done hx]
    cases hf : f a m' with
    | done b m'' => rw [bind_done hf, bind_done ((bind_done hx).trans hf)]
    | failed e m'' => rw [bind_failed hf, bind_failed ((bind_done hx).trans hf)]
    | exhausted => rw [bind_exhausted hf, bind_exhausted ((bind_done hx).trans hf)]
  | failed e m' => rw [bind_failed hx, bind_failed (bind_failed hx)]
  | exhausted => rw [bind_exhausted hx, bind_exhausted (bind_exhausted hx)]

theorem bind_pure (x : Eval α) : x >>= pure = x := by
  funext m
  cases hx : x m with
  | done a m' => rw [bind_done hx, pure_apply]
  | failed e m' => rw [bind_failed hx]
  | exhausted => rw [bind_exhausted hx]

instance : LawfulMonad Eval := .mk' _ bind_pure (fun _ _ => rfl) bind_assoc

/-- A turn of a loop and those after it. -/
theorem turns_succ (condition : Eval Bool) (body : Eval Flow) (fuel : Nat) :
    turns condition body (fuel + 1) = (do
      if ← condition then
        match ← body with
        | .normal => turns condition body fuel
        | .break => pure .normal
        | .return value => pure (.return value)
      else pure .normal) := by
  funext m
  rw [turns]
  cases hc : condition m with
  | failed e m' => rw [bind_failed hc]
  | exhausted => rw [bind_exhausted hc]
  | done b m' =>
    rw [bind_done hc]
    cases b with
    | false => rfl
    | true =>
      rw [if_pos rfl]
      cases hb : body m' with
      | failed e m'' => rw [bind_failed hb]; simp [hb]
      | exhausted => rw [bind_exhausted hb]; simp [hb]
      | done flow m'' =>
        rw [bind_done hb]
        simp only [hb]
        cases flow <;> rfl

/-- The turns of a loop are computations one after another. -/
theorem turns_eq_repeated (condition : Eval Bool) (body : Eval Flow) (fuel : Nat) :
    turns condition body fuel = Operations.repeated exhausted condition body fuel := by
  induction fuel with
  | zero => rfl
  | succ fuel ih =>
    rw [turns_succ, ih]
    rfl

/-- An assignment looks for its holder by the distance noted, or among the globals. -/
theorem assignName_eq (setting : Setting) (id : OccurrenceId) (name : Token) (value : Value) :
    assignName setting id name value = (do
      match setting.distances[id]? with
      | some distance =>
        let scope ← read Machine.scope
        assign (·.holderAt scope distance name.lexeme) name value
      | none => assign (·.holder Machine.globals name.lexeme) name value) := rfl

theorem closures_cons (scope : ScopeId) (f : Function) (fs : List Function) :
    closures scope (f :: fs) = (do
      let id ← newObject
      let rest ← closures scope fs
      pure ((f.name.lexeme, ⟨id, f, scope, f.isInitializer⟩) :: rest)) := rfl

theorem execute_class_eq (setting : Setting) (fuel : Nat) (name : Token) (declared : List Function) :
    execute setting (fuel + 1) (.class name declared) = (do
      let scope ← read Machine.scope
      declare scope name.lexeme
      let methods ← closures scope declared
      let id ← newObject
      assign (·.holder scope name.lexeme) name (.class ⟨id, name.lexeme, .ofList methods⟩)
      pure .normal) := rfl

/-- A computation that leaves the machine as it is. -/
def Still (x : Eval α) : Prop := ∀ m, ∀ m' ∈ (x m).machine?, m' = m

theorem still_pure (a : α) : Still (pure a) := by
  rintro m _ ⟨⟩
  rfl

theorem still_exhausted : Still (exhausted : Eval α) := by
  rintro m _ ⟨⟩

theorem still_fail (cause : RuntimeError.Cause) (token : Token) : Still (fail cause token : Eval α) := by
  rintro m _ ⟨⟩
  rfl

theorem still_lift (result : Except RuntimeError.Cause α) (token : Token) : Still (lift result token) := by
  cases result with
  | ok a => exact still_pure a
  | error cause => exact still_fail cause token

theorem still_read (f : Machine → α) : Still (read f) := by
  rintro m _ ⟨⟩
  rfl

theorem still_access (f : Store → Except AccessError Value) (name : Token) : Still (access f name) := by
  intro m m' hm'
  unfold access at hm'
  cases hf : f m.store with
  | ok v =>
    rw [hf] at hm'
    cases hm'
    rfl
  | error e =>
    rw [hf] at hm'
    cases hm'
    rfl

theorem Still.bind {x : Eval α} {f : α → Eval β} (hx : Still x) (hf : ∀ a, Still (f a)) : Still (x >>= f) := by
  intro m m' hm'
  cases hxm : x m with
  | done a m'' =>
    have hm'' : m'' = m := hx m m'' (by rw [hxm]; rfl)
    rw [bind_done hxm] at hm'
    exact (hf a m'' m' hm').trans hm''
  | failed e m'' =>
    rw [bind_failed hxm] at hm'
    exact hx m m' (by rw [hxm]; exact hm')
  | exhausted =>
    rw [bind_exhausted hxm] at hm'
    cases hm'

/-- To read a variable changes nothing, whether it is found or not. -/
theorem still_readName (setting : Setting) (id : OccurrenceId) (name : Token) : Still (readName setting id name) := by
  unfold readName
  cases setting.distances[id]? with
  | none => exact still_access _ name
  | some d => exact (still_read _).bind fun scope => still_access _ name

/-- A call that is refused has changed nothing yet. -/
theorem still_checkCall (arity : Nat) (arguments : List Value) (paren : Token) :
    Still (checkCall arity arguments paren) := by
  unfold checkCall
  split
  · exact still_fail _ paren
  · refine (still_read Machine.callDepth).bind fun depth => ?_
    split
    · exact still_fail _ paren
    · exact still_pure ()

theorem still_result (f : Closure) (flow : Flow) : Still (result f flow) := by
  unfold result
  split
  · exact still_read _
  · cases flow with
    | normal => exact still_pure _
    | «break» => exact still_pure _
    | «return» value => exact still_pure value

end Eval

/-- What a run leaves behind is the machine that it ended in. -/
theorem Interpreter.concluded_eq_some {i i' : Interpreter} {o : Eval.Outcome Unit} {error : Option RuntimeError}
    (h : i.concluded o = some (error, i')) :
    ∃ m ∈ o.machine?, i' = { i with machine := m }.forgetTopLevel := by
  cases o with
  | done a m =>
    cases h
    exact ⟨m, rfl, rfl⟩
  | failed e m =>
    cases h
    exact ⟨m, rfl, rfl⟩
  | exhausted => cases h

end LoxLang
