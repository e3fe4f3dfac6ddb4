import LoxLang.Proofs.Run.Orderly
import LoxLang.Proofs.Run.Access
import LoxLang.Proofs.Run.Rest

namespace LoxLang
open Scoping

namespace Binding

/-- The walk over a statement outside all functions may report nothing. -/
def Passable (s : Stmt) : Prop := s.Formed ∧ ∃ w, (stmt Context.top.place s w).errors = #[]

theorem Passable.of_mem {ss : List Stmt} (hf : Stmt.FormedAll ss) {w : Walk}
    (h : (stmts Context.top.place ss w).errors = #[]) {s : Stmt} (hs : s ∈ ss) : Passable s := by
  induction ss generalizing w with
  | nil => cases hs
  | cons t ss ih =>
    rcases List.mem_cons.1 hs with rfl | hs
    · exact ⟨hf.1, w, (stmts_pass .top rfl ss hf.2).errors _ h⟩
    · exact ih hf.2 h hs

/-- The walk that reports nothing of a statement reports nothing of those inside it. -/
theorem Passable.child {s t : Stmt} (h : Passable t) (hs : s ∈ t.children) : Passable s := by
  obtain ⟨hf, w, he⟩ := h
  cases t with
  | block body => exact .of_mem (w := { w with scopes := .empty :: w.scopes }) hf he hs
  | branch condition thenBranch elseBranch =>
    cases elseBranch with
    | none =>
      rw [List.mem_singleton.1 hs]
      exact ⟨hf.2, _, he⟩
    | some elseBranch =>
      rcases List.mem_cons.1 hs with rfl | hs
      · exact ⟨hf.1.2, _, (stmt_passes .top rfl elseBranch hf.2.2).errors _ he⟩
      · rw [List.mem_singleton.1 hs]
        exact ⟨hf.2.2, _, he⟩
  | loop condition body =>
    rw [List.mem_singleton.1 hs]
    exact ⟨hf.2, _, he⟩
  | _ => cases hs

/-- A `return` outside all functions is reported. -/
theorem not_passable_return (keyword : Token) (value : Option Expr) : ¬Passable (.return keyword value) := by
  rintro ⟨-, w, he⟩
  cases value with
  | none => exact push_ne_empty _ _ he
  | some value =>
    have he := (expr_passes .top value).errors _ he
    exact push_ne_empty _ _ he

/-- An accepted program has no `return` outside functions. -/
theorem no_return_outside {program : List Stmt} {b : Binding} (hf : Stmt.FormedAll program)
    (hb : ofProgram program = .ok b) {around : List Stmt} {keyword : Token} {value : Option Expr} :
    ¬Stmt.Nested program around (.return keyword value) := by
  unfold ofProgram at hb
  dsimp only at hb
  split at hb
  · next he =>
    have passable : ∀ {around : List Stmt} {s : Stmt}, Stmt.Nested program around s → Passable s := by
      intro around s h
      induction h with
      | outermost hs => exact .of_mem hf (Array.isEmpty_iff.1 he) hs
      | inside _ hs ih => exact ih.child hs
    exact fun h => not_passable_return keyword value (passable h)
  · cases hb

end Binding

namespace Position

variable {program : List Stmt} {p : Position} {s : Stmt}

theorem loops_within (p : Position) (s : Stmt) : (p.within s).loops = p.loops + if s.isLoop then 1 else 0 := by
  simp [loops, within, List.countP_cons]

/-- A statement at the place may end so: by a `break` only inside a loop, and by a `return` only in a call. -/
structure Allows (program : List Stmt) (p : Position) (flow : Flow) : Prop where
  breaks : flow = .break → p.loops ≠ 0
  returns : ∀ x, flow = .return x → p.activation ≠ .program program

theorem allows_normal : p.Allows program .normal := ⟨by simp, by simp⟩

theorem allows_break (h : p.loops ≠ 0) : p.Allows program .break := ⟨fun _ => h, by simp⟩

theorem allows_return (h : p.activation ≠ .program program) (x : Value) : p.Allows program (.return x) :=
  ⟨by simp, fun _ _ => h⟩

/-- Outside all statements a program goes on, and a function may only return. -/
theorem Allows.ne_break {flow : Flow} (h : p.Allows program flow) (hp : p.around = []) : flow ≠ .break := by
  intro hb
  apply h.breaks hb
  simp [loops, hp]

/-- A program as a whole neither breaks nor returns. -/
theorem Allows.eq_normal {flow : Flow} (h : Allows program ⟨.program program, []⟩ flow) : flow = .normal := by
  cases flow with
  | normal => rfl
  | «break» => exact absurd rfl (h.ne_break rfl)
  | «return» x => exact absurd rfl (h.returns x rfl)

end Position

namespace Watched
open Telling

variable {program : List Stmt} {setting : Setting} {fuel loops calls : Nat} {p : Position} {s : Stmt}

/-- What is due inside a statement that is no loop is what is due when it ends. -/
theorem Runs.within {x : Watched Flow} (hs : s.isLoop = false)
    (h : Runs program loops calls [] x (p.within s).unwinding ((p.within s).Allows program)) :
    Runs program loops calls [] x (fun flow => (p, .ends s flow) :: p.unwinding flow) (p.Allows program) := by
  apply h.weaken
  · intro flow _
    cases flow with
    | normal => simp
    | «break» => simp [p.unwinding_within s, Stmt.passing, hs]
    | «return» x => simp [p.unwinding_within s, Stmt.passing]
  · intro flow hflow
    refine ⟨fun hb => ?_, hflow.returns⟩
    have := hflow.breaks hb
    simpa [p.loops_within s, hs] using this

theorem Quiet.idle {α : Type} {x : Watched α} {report : α → Report} (hx : Quiet program loops calls x)
    (ho : p.activation.origin = program) (hr : ∀ a, (report a).Idle) :
    Quiet program loops calls (Watched.telling p report x) :=
  Runs.idle (hx.weaken (fun _ _ => List.nil_prefix) fun _ h => h) ho hr

/-- A statement starts where the text has it, with as many loops counted as are around it there. -/
theorem obeys_starts {m : Machine} (ho : p.activation.origin = program) (hp : p.Has s) (hl : m.loopDepth = p.loops)
    (hc : m.callDepth = p.activation.depth) : Event.Obeys program ⟨p, .starts s, m⟩ := by
  refine ⟨ho, ?_, by simp, by simp, by simp⟩
  rintro _ ⟨⟩
  exact ⟨hp, hl, hc⟩

theorem Runs.ended {x : Watched Flow} {due : List Told} (ho : p.activation.origin = program)
    (h : Runs program loops calls due x (fun flow => (p, .ends s flow) :: p.unwinding flow) (p.Allows program)) :
    Runs program loops calls due (Watched.telling p (.ends s) x) p.unwinding (p.Allows program) := by
  refine h.telling (fun flow hflow m _ _ => ?_) (by simp)
  refine ⟨ho, by simp, ?_, ?_, by simp⟩
  · rintro _ ⟨⟩
    exact hflow.breaks rfl
  · rintro _ x ⟨⟩
    exact hflow.returns x rfl

/-- A statement other than a `break` obeys if what it does between its start and its end does. -/
theorem Runs.started {x : Watched Flow} (ho : p.activation.origin = program) (hp : p.Has s)
    (hs : ∀ keyword, s ≠ .break keyword)
    (h : Runs program p.loops p.activation.depth [] x (fun flow => (p, .ends s flow) :: p.unwinding flow)
      (p.Allows program)) :
    Runs program p.loops p.activation.depth [] (do Watched.tell p (.starts s); Watched.telling p (.ends s) x)
      p.unwinding (p.Allows program) := by
  have hafter : Report.due p (.starts s) = [] := by
    cases s <;> first | rfl | exact absurd rfl (hs _)
  apply (Runs.tell (fun m => obeys_starts ho hp) (fun keyword hk => ?_) List.nil_prefix).bind
  · intro _ _
    rw [hafter]
    exact h.ended ho
  · cases hk
    exact absurd rfl (hs keyword)

/-- A `break` looks at nothing but the number of loops. -/
theorem execute_break {m : Machine} (setting : Setting) (fuel : Nat) (keyword : Token) :
    Eval.execute setting (fuel + 1) (.break keyword) m =
      if m.loopDepth = 0 then .failed ⟨.breakOutsideLoop, keyword.line⟩ m else .done .break m := by
  change (if m.loopDepth = 0 then Eval.fail .breakOutsideLoop keyword else pure .break : Eval Flow) m = _
  split <;> rfl

/-- A `break` ends at once, or it is stray and the last that is told. -/
theorem Runs.break (ho : p.activation.origin = program) {keyword : Token} (hp : p.Has (.break keyword))
    (setting : Setting) (fuel : Nat) :
    Runs program p.loops p.activation.depth [] (execute setting (fuel + 1) p (.break keyword)) p.unwinding
      (p.Allows program) := by
  by_cases hloops : p.loops = 0
  · intro m hl hc
    have hx : execute setting (fuel + 1) p (.break keyword) m =
        (.failed ⟨.breakOutsideLoop, keyword.line⟩ m, [⟨p, .starts (.break keyword), m⟩]) := by
      have hbreak := execute_break (m := m) setting fuel keyword
      rw [if_pos (hl.trans hloops)] at hbreak
      have hsilent : (Telling.silent (Eval.execute setting (fuel + 1) (.break keyword)) : Watched Flow) m =
          (.failed ⟨.breakOutsideLoop, keyword.line⟩ m, []) := congrArg (·, []) hbreak
      rw [execute, statement_simple setting fuel p rfl, bind_done rfl]
      unfold Watched.telling Telling.telling
      rw [bind_failed hsilent]
      rfl
    constructor
    all_goals rw [hx]
    case obeys =>
      rintro _ (_ | ⟨_, ⟨⟩⟩)
      exact obeys_starts ho hp hl hc
    case prompt => exact List.nil_prefix
    case orderly => exact ⟨by simp [Event.due, Report.due, hloops], trivial⟩
    case halts =>
      have hstray : Event.Stray ⟨p, .starts (.break keyword), m⟩ keyword := ⟨rfl, hloops⟩
      exact List.nil_append [_] ▸ Halts.stray (by rintro v ⟨⟩) hstray
    case done => rintro _ _ ⟨⟩
  · rw [execute, statement_simple setting fuel p rfl]
    apply (Runs.tell (fun m => obeys_starts ho hp) (fun _ _ => hloops) List.nil_prefix).bind
    intro _ _
    refine Runs.ended ho (.known (a := .break) (fun m hl => ?_) ?_ (Position.allows_break hloops))
    · rw [execute_break, if_neg (hl ▸ hloops)]
    · simp [Report.due, hloops]

/-- With so much fuel, all that is watched obeys the text. -/
structure ObeysAt (program : List Stmt) (setting : Setting) (fuel : Nat) : Prop where
  evaluate : ∀ p e, p.activation.origin = program →
    Quiet program p.loops p.activation.depth (evaluate setting fuel p e)
  execute : ∀ p s, p.activation.origin = program → p.Has s →
    Runs program p.loops p.activation.depth [] (execute setting fuel p s) p.unwinding (p.Allows program)
  call : ∀ p callee arguments paren, p.activation.origin = program →
    Quiet program p.loops p.activation.depth (call setting fuel p callee arguments paren)
  run : ∀ p f arguments loops, p.activation.origin = program →
    Quiet program loops (p.activation.depth + 1) (run setting fuel p f arguments)

namespace ObeysAt

/-- One level more for expressions, in which nothing is due: only calls run statements, and none is left half way. -/
theorem evaluate_succ (h : ObeysAt program setting fuel) (p : Position) (e : Expr)
    (ho : p.activation.origin = program) :
    Quiet program p.loops p.activation.depth (Watched.evaluate setting (fuel + 1) p e) := by
  have yields : ∀ {x : Watched Value}, Quiet program p.loops p.activation.depth x →
      Quiet program p.loops p.activation.depth (telling p (.yields e) x) :=
    fun hx => Quiet.idle hx ho fun _ => trivial
  cases e with
  | literal value => exact yields (.pure List.nil_prefix trivial)
  | group inner => exact yields (h.evaluate p inner ho)
  | unary operator operand =>
    apply yields
    apply (h.evaluate p operand ho).bind
    intro x _
    exact .quiet (Eval.steady_lift (Value.unary_cause _ x) operator)
  | binary left operator right =>
    apply yields
    apply (h.evaluate p left ho).bind
    intro x _
    apply (h.evaluate p right ho).bind
    intro y _
    exact .quiet (Eval.steady_lift (Value.binary_cause _ x y) operator)
  | logical left operator right =>
    apply yields
    apply (h.evaluate p left ho).bind
    intro x _
    split
    · exact .pure List.nil_prefix trivial
    · exact h.evaluate p right ho
  | ternary condition thenBranch elseBranch =>
    apply yields
    apply (h.evaluate p condition ho).bind
    intro x _
    split
    · exact h.evaluate p thenBranch ho
    · exact h.evaluate p elseBranch ho
  | «variable» id name => exact yields (.quiet (Eval.steady_readName setting id name))
  | this id keyword =>
    have hseeks : Report.Idle (.seeks id keyword) := trivial
    apply yields
    apply (Runs.note ho hseeks).bind
    intro _ _
    exact .quiet (Eval.steady_readName setting id keyword)
  | assign id name value =>
    apply yields
    apply (h.evaluate p value ho).bind
    intro x _
    apply (Runs.quiet (Eval.steady_assignName setting id name x)).bind
    intro _ _
    exact .pure (List.prefix_refl _) trivial
  | call callee paren given =>
    apply yields
    apply (h.evaluate p callee ho).bind
    intro f _
    apply (Runs.values (fun e => h.evaluate p e ho) given).bind
    intro arguments _
    exact h.call p f arguments paren ho
  | get object name =>
    apply yields
    apply (h.evaluate p object ho).bind
    intro x _
    cases x with
    | «instance» id cls => exact Quiet.idle (.quiet (Eval.steady_property id cls name)) ho fun _ => trivial
    | _ => exact .quiet (Eval.steady_fail (by simp) name)
  | set object name value =>
    apply yields
    apply (h.evaluate p object ho).bind
    intro x _
    cases x with
    | «instance» id cls =>
      apply (h.evaluate p value ho).bind
      intro y _
      apply (Runs.quiet (Eval.steady_setField id name.lexeme y)).bind
      intro _ _
      exact .pure (List.prefix_refl _) trivial
    | _ => exact .quiet (Eval.steady_fail (by simp) name)

/-- One level more for statements. What one inside leaves due, the one around it does next. -/
theorem execute_succ (hreturns : ∀ around keyword value, ¬Stmt.Nested program around (.return keyword value))
    (h : ObeysAt program setting fuel) (p : Position) (s : Stmt) (ho : p.activation.origin = program) (hp : p.Has s) :
    Runs program p.loops p.activation.depth [] (Watched.execute setting (fuel + 1) p s) p.unwinding
      (p.Allows program) := by
  have within : s.isLoop = false → ∀ e, Quiet program p.loops p.activation.depth
      (Watched.evaluate setting fuel (p.within s) e) := by
    intro hs e
    have := h.evaluate (p.within s) e ho
    rwa [p.loops_within, hs] at this
  have child : s.isLoop = false → ∀ t ∈ s.children, Runs program p.loops p.activation.depth []
      (Watched.execute setting fuel (p.within s) t) (p.within s).unwinding ((p.within s).Allows program) := by
    intro hs t ht
    have := h.execute (p.within s) t ho (.inside hp ht)
    rwa [p.loops_within, hs] at this
  have normal : ∀ due, due <+: (p, .ends s .normal) :: p.unwinding .normal → Runs program p.loops p.activation.depth due
      (pure .normal) (fun flow => (p, .ends s flow) :: p.unwinding flow) (p.Allows program) :=
    fun due hdue => .pure hdue Position.allows_normal
  have plain : ∀ {y : Eval Flow}, y.Plain → Runs program p.loops p.activation.depth [] (silent y)
      (fun flow => (p, .ends s flow) :: p.unwinding flow) (p.Allows program) :=
    fun hy => .silent hy.steady fun m flow m' hm => hy.normal m flow m' hm ▸ Position.allows_normal
  cases s with
  | expression value =>
    rw [Watched.execute]
    refine .started ho hp (by simp) ?_
    apply (within rfl value).bind
    intro _ _
    exact .pure List.nil_prefix Position.allows_normal
  | print value =>
    rw [Watched.execute]
    refine .started ho hp (by simp) ?_
    apply (within rfl value).bind
    intro x _
    apply (Runs.quiet (Eval.steady_print x.display)).bind
    intro _ _
    exact .pure List.nil_prefix Position.allows_normal
  | var name initializer =>
    cases initializer with
    | none =>
      rw [Watched.execute, statement_simple setting fuel p rfl]
      exact .started ho hp (by simp) (plain (Eval.plain_bare name setting fuel))
    | some value =>
      rw [Watched.execute]
      refine .started ho hp (by simp) ?_
      apply (within rfl value).bind
      intro x _
      apply (Runs.quiet (Eval.steady_read _)).bind
      intro scope _
      apply (Runs.quiet (Eval.steady_define scope name.lexeme x)).bind
      intro _ _
      exact .pure List.nil_prefix Position.allows_normal
  | block body =>
    rw [Watched.execute]
    refine .started ho hp (by simp) (.within rfl ?_)
    apply (Runs.quiet (Eval.steady_read _)).bind
    intro outer _
    apply (Runs.quiet (Eval.steady_childScope outer)).bind
    intro scope _
    exact .inScope scope (.sequence (child rfl) (Position.unwinding_normal _) Position.allows_normal)
  | branch condition thenBranch elseBranch =>
    simp only [Watched.execute]
    refine .started ho hp (by simp) (.within rfl ?_)
    apply (within rfl condition).bind
    intro x _
    split
    · exact child rfl thenBranch List.mem_cons_self
    · cases elseBranch with
      | none => exact .pure List.nil_prefix Position.allows_normal
      | some elseBranch => exact child rfl elseBranch (by simp [Stmt.children])
  | loop condition body =>
    rw [Watched.execute]
    have hin : ((p.within (.loop condition body)).loops) = p.loops + 1 := p.loops_within _
    have hcondition := h.evaluate (p.within (.loop condition body)) condition ho
    have hbody := h.execute (p.within (.loop condition body)) body ho (.inside hp List.mem_cons_self)
    rw [hin] at hcondition hbody
    refine .started ho hp (by simp) (.inLoop ?_)
    refine .turns (hcondition.bind fun x _ => .pure List.nil_prefix trivial) hbody (Position.unwinding_normal _) ?_
      (fun x => ?_) Position.allows_normal (fun x hx => ?_) fuel
    · exact List.prefix_refl _
    · exact List.prefix_refl _
    · have hin : p.activation ≠ .program program := hx.returns x rfl
      exact Position.allows_return hin x
  | «break» keyword => exact .break ho hp setting fuel
  | «return» keyword value =>
    have hin : p.activation ≠ .program program := by
      intro ha
      unfold Position.Has at hp
      rw [ha] at hp
      exact hreturns _ _ _ hp
    cases value with
    | none =>
      rw [Watched.execute]
      exact .started ho hp (by simp) (.pure List.nil_prefix (Position.allows_return hin .nil))
    | some value =>
      rw [Watched.execute]
      refine .started ho hp (by simp) ?_
      apply (within rfl value).bind
      intro x _
      exact .pure List.nil_prefix (Position.allows_return hin x)
  | function declaration =>
    rw [Watched.execute, statement_simple setting fuel p rfl]
    exact .started ho hp (by simp) (plain (Eval.plain_function declaration setting fuel))
  | «class» name methods =>
    rw [Watched.execute, statement_simple setting fuel p rfl]
    exact .started ho hp (by simp) (plain (Eval.plain_class name methods setting fuel))

theorem call_succ (h : ObeysAt program setting fuel) (p : Position) (callee : Value) (arguments : List Value)
    (paren : Token) (ho : p.activation.origin = program) :
    Quiet program p.loops p.activation.depth (Watched.call setting (fuel + 1) p callee arguments paren) := by
  cases callee with
  | function f =>
    rw [Watched.call]
    apply (Runs.quiet (Eval.steady_checkCall _ arguments paren)).bind
    intro _ _
    exact .inCall (h.run p f arguments p.loops ho)
  | «class» c =>
    rw [Watched.call]
    apply (Runs.quiet (Eval.steady_checkCall _ arguments paren)).bind
    intro _ _
    apply Runs.inCall
    apply (Runs.quiet Eval.steady_newObject).bind
    intro id _
    cases c.initializer? with
    | none => exact .pure List.nil_prefix trivial
    | some method =>
      apply (Runs.quiet (Eval.steady_bindThis method _)).bind
      intro f _
      refine Quiet.idle ?_ ho fun _ => trivial
      apply (h.run p f arguments p.loops ho).bind
      intro _ _
      exact .pure List.nil_prefix trivial
  | native f =>
    cases f
    rw [Watched.call]
    apply (Runs.quiet (Eval.steady_checkCall _ arguments paren)).bind
    intro _ _
    apply Runs.inCall
    apply (Runs.quiet (Eval.steady_readClock setting.clock)).bind
    intro _ _
    exact .pure List.nil_prefix trivial
  | _ => exact .quiet (Eval.steady_fail (by simp) paren)

/-- The body of a function ends normally or by a `return`, which gives the result of the call. -/
theorem run_succ (h : ObeysAt program setting fuel) (p : Position) (f : Closure) (arguments : List Value) (loops : Nat)
    (ho : p.activation.origin = program) :
    Quiet program loops (p.activation.depth + 1) (Watched.run setting (fuel + 1) p f arguments) := by
  have ho' : (p.called f).activation.origin = program := ho
  have body : Runs program 0 (p.activation.depth + 1) []
      (Operations.sequence (Watched.execute setting fuel (p.called f)) f.declaration.body) (p.called f).unwinding
      ((p.called f).Allows program) :=
    .sequence (fun s hs => h.execute (p.called f) s ho (.outermost hs)) (Position.unwinding_normal _)
      Position.allows_normal
  have results : ∀ {due : List Told} {x : Watched Value},
      Runs program loops (p.activation.depth + 1) due x (fun v => [(p.called f, .results v)]) (fun _ => True) →
      Runs program loops (p.activation.depth + 1) due (telling (p.called f) .results x) (fun _ => []) fun _ => True :=
    fun hx => hx.idle ho fun _ => trivial
  rw [Watched.run]
  apply results
  apply (Runs.quiet (Eval.steady_childScope f.scope)).bind
  intro scope _
  rw [defineAll_silent]
  apply (Runs.quiet (Eval.steady_defineAll scope _ arguments)).bind
  intro _ _
  have left : Runs program loops (p.activation.depth + 1) []
      (telling (p.called f) .leaves
        (outsideLoops (inScope scope
          (Operations.sequence (Watched.execute setting fuel (p.called f)) f.declaration.body))))
      (p.called f).activation.outcome ((p.called f).Allows program) := by
    change Runs program loops _ [] _ (fun flow => Report.due (p.called f) (.leaves flow)) _
    refine Runs.telling ?_ (fun flow hflow m _ _ => ?_) (by simp)
    · refine (Runs.outsideLoops (.inScope scope body)).weaken (fun flow _ => ?_) fun _ h => h
      cases flow <;> first | exact List.nil_prefix | exact List.prefix_refl _
    · exact ⟨ho, by simp, by simp, by simp, by simpa using hflow.ne_break rfl⟩
  apply left.bind
  intro flow _
  have steady := Eval.steady_result f flow
  cases hi : f.initializes with
  | true =>
    have hdue : (p.called f).activation.outcome flow = [] := by
      cases flow <;> simp [Activation.outcome, Position.called, hi]
    rw [hdue]
    exact .silent steady (Eval.gives_any _)
  | false =>
    cases flow with
    | normal => exact .silent steady (Eval.gives_any _)
    | «break» => exact .silent steady (Eval.gives_any _)
    | «return» x =>
      refine .known (a := x) (fun m _ => ?_) ?_ trivial
      · simp [Eval.result, hi, Eval.pure_apply]
      · simp [Activation.outcome, Position.called, hi]

end ObeysAt

theorem obeysAt (hreturns : ∀ around keyword value, ¬Stmt.Nested program around (.return keyword value))
    (setting : Setting) (fuel : Nat) : ObeysAt program setting fuel := by
  induction fuel with
  | zero => exact ⟨fun _ _ _ => .exhausted, fun _ _ _ _ => .exhausted, fun _ _ _ _ _ => .exhausted,
      fun _ _ _ _ _ => .exhausted⟩
  | succ fuel h => exact ⟨h.evaluate_succ, h.execute_succ hreturns, h.call_succ, h.run_succ⟩

/-- Outside all statements a program only goes on: whatever statements of it run, nothing is due between them. -/
theorem runAll_quiet (hreturns : ∀ around keyword value, ¬Stmt.Nested program around (.return keyword value))
    (setting : Setting) (fuel : Nat) {ss : List Stmt} (hss : ∀ s ∈ ss, s ∈ program) :
    Quiet program 0 0 (runAll setting fuel ⟨.program program, []⟩ ss) := by
  induction ss with
  | nil => exact .pure List.nil_prefix trivial
  | cons s ss ih =>
    have hs := (obeysAt hreturns setting fuel).execute ⟨.program program, []⟩ s rfl
      (.outermost (hss s List.mem_cons_self))
    apply hs.bind
    intro flow hflow
    rw [hflow.eq_normal, Position.unwinding_normal]
    exact ih fun t ht => hss t (List.mem_cons_of_mem s ht)

end Watched

namespace Interpreter

/-- The run of a program, watched. -/
def watch (i : Interpreter) (c : Conditions) (program : List Stmt) : Eval.Outcome Unit × List Event :=
  Watched.runAll (i.setting c) c.fuel ⟨.program program, []⟩ program i.machine

/-- To watch a run does nothing to it. -/
theorem watch_fst (i : Interpreter) (c : Conditions) (program : List Stmt) :
    (i.watch c program).1 = runAll (i.setting c) c.fuel program i.machine :=
  congrFun (Watched.plain_runAll (i.setting c) c.fuel _ program) i.machine

variable {i i' : Interpreter} {n₀ : OccurrenceId} {echo : Bool} {source : String} {c : Conditions}
  {outcome : Eval.Outcome Unit} {log : List Event}

theorem no_return_outside {program : List Stmt} (hf : Stmt.FormedAll program) (hb : i.bind program = .ok i')
    (around : List Stmt) (keyword : Token) (value : Option Expr) :
    ¬Stmt.Nested program around (.return keyword value) := by
  unfold Interpreter.bind at hb
  cases ho : Binding.ofProgram program with
  | error es => rw [ho] at hb; cases hb
  | ok b => exact Binding.no_return_outside hf ho

/-- Watched from rest, where no loop and no call is counted. -/
theorem watch_obeys (h : Used i) (hp : (Parsed.ofTokens (Token.ofSource source) n₀).errors = [])
    (hb : i.bind (Program.ofSource echo source n₀) = .ok i') (c : Conditions) :
    (∀ v ∈ (i'.watch c (Program.ofSource echo source n₀)).2, v.Obeys (Program.ofSource echo source n₀)) ∧
      Orderly [] (i'.watch c (Program.ofSource echo source n₀)).2 ∧
      Halts (i'.watch c (Program.ofSource echo source n₀)).1.error?
        (i'.watch c (Program.ofSource echo source n₀)).2 := by
  have hf := (Program.ofSource_read echo hp).formed
  have hm : i'.machine.frame = ⟨Machine.globals, 0, 0⟩ := by
    rw [(bind_ok hf hb).1]
    exact h.frame_eq
  obtain ⟨hobeys, -, horderly, hhalts, -⟩ := Watched.runAll_quiet (no_return_outside hf hb) (i'.setting c) c.fuel
    (fun s hs => hs) i'.machine (congrArg Machine.Frame.loopDepth hm) (congrArg Machine.Frame.callDepth hm)
  refine ⟨hobeys, ?_, hhalts⟩
  exact horderly.mono (by cases (Watched.runAll _ _ _ _ i'.machine).1 <;> exact List.nil_prefix)

/-- Whatever has run before: when a statement starts, it stands in the text of the body that runs, and the loops counted
are those around it there. A `break` fails, with nothing after it, if there is none, and only then does a run fail so;
otherwise it ends the statements up to the innermost of the loops, and that loop, before anything else happens. A
`return` is in a function, ends all statements around it there and leaves the body, with its value for the result. No
body is left by a `break`, and outside all statements the program ends each statement normally. -/
theorem breaks_and_returns_obey_the_text (h : Used i) (hp : (Parsed.ofTokens (Token.ofSource source) n₀).errors = [])
    (hb : i.bind (Program.ofSource echo source n₀) = .ok i')
    (hw : i'.watch c (Program.ofSource echo source n₀) = (outcome, log)) :
    outcome = runAll (i'.setting c) c.fuel (Program.ofSource echo source n₀) i'.machine ∧
    (∀ v ∈ log, v.position.activation.origin = Program.ofSource echo source n₀ ∧
      ∀ s, v.report = .starts s → v.position.Has s ∧ v.machine.loopDepth = v.position.loops ∧
        v.machine.callDepth = v.position.activation.depth) ∧
    (∀ before v after keyword, log = before ++ v :: after → v.report = .starts (.break keyword) →
      if v.position.loops = 0 then after = [] ∧ outcome.error? = some ⟨.breakOutsideLoop, keyword.line⟩
      else ∃ u later, after = u :: later ∧ u.told = (v.position, .ends (.break keyword) .break)) ∧
    (∀ e, outcome.error? = some e → e.cause = .breakOutsideLoop →
      ∃ before v keyword, log = before ++ [v] ∧ v.report = .starts (.break keyword) ∧ v.position.loops = 0) ∧
    (∀ before v after s, log = before ++ v :: after → v.report = .ends s .break →
      ∃ inner condition body outer, v.position.around = inner ++ .loop condition body :: outer ∧
        (∀ t ∈ inner, t.isLoop = false) ∧
        v.position.activation.ended .break (.loop condition body :: outer) inner ++
          [(⟨v.position.activation, outer⟩, .ends (.loop condition body) .normal)] <+: after.map Event.told) ∧
    (∀ before v after s x, log = before ++ v :: after → v.report = .ends s (.return x) →
      ∃ f caller around, v.position.activation = .call f caller around ∧
        v.position.activation.ended (.return x) [] v.position.around ++
          (⟨v.position.activation, []⟩, .leaves (.return x)) ::
            (if f.initializes then [] else [(⟨v.position.activation, []⟩, .results x)]) <+: after.map Event.told) ∧
    (∀ v ∈ log, v.report ≠ .leaves .break) ∧
    ∀ v ∈ log, ∀ s flow, v.report = .ends s flow → v.position = ⟨.program (Program.ofSource echo source n₀), []⟩ →
      flow = .normal := by
  have hfst := i'.watch_fst c (Program.ofSource echo source n₀)
  obtain ⟨hobeys, horderly, hhalts⟩ := watch_obeys h hp hb c
  rw [hw] at hobeys horderly hhalts hfst
  dsimp only at hobeys horderly hhalts hfst
  have hdue : ∀ {before after : List Event} {v : Event}, log = before ++ v :: after →
      v ∈ log ∧ v.report.due v.position <+: after.map Event.told := by
    rintro before after v rfl
    have := horderly.follows
    rw [List.append_nil] at this
    exact ⟨by simp, this⟩
  refine ⟨hfst, fun v hv => ⟨(hobeys v hv).origin, (hobeys v hv).starts⟩, ?_, ?_, ?_, ?_, ?_, ?_⟩
  · intro before v after keyword hlog hv
    split
    · next hloops =>
      rw [hlog] at hhalts
      exact hhalts.at_stray ⟨hv, hloops⟩
    · next hloops =>
      have hnext := (hdue hlog).2
      rw [hv] at hnext
      simp only [Report.due, if_neg hloops] at hnext
      cases after with
      | nil => simp at hnext
      | cons u later =>
        rw [List.map_cons, List.cons_prefix_cons] at hnext
        exact ⟨u, later, rfl, hnext.1.symm⟩
  · intro e he hc
    rw [he] at hhalts
    cases hhalts with
    | clear _ hclear => exact absurd hc (hclear e rfl)
    | stray _ hv => exact ⟨_, _, _, rfl, hv⟩
  · intro before v after s hlog hv
    obtain ⟨hmem, hnext⟩ := hdue hlog
    obtain ⟨inner, condition, body, outer, ha, hinner, hu⟩ :=
      v.position.activation.unwinding_break ((hobeys v hmem).breaks s hv)
    rw [hv] at hnext
    refine ⟨inner, condition, body, outer, ha, hinner, ?_⟩
    rw [← hu]
    exact hnext
  · intro before v after s x hlog hv
    obtain ⟨hmem, hnext⟩ := hdue hlog
    have horigin := (hobeys v hmem).origin
    have hcall := (hobeys v hmem).returns s x hv
    rw [hv] at hnext
    change v.position.activation.unwinding _ _ <+: _ at hnext
    rw [Activation.unwinding_return] at hnext
    cases ha : v.position.activation with
    | program body =>
      rw [ha] at horigin hcall
      exact absurd (congrArg Activation.program horigin) hcall
    | call f caller around =>
      rw [ha] at hnext
      exact ⟨f, caller, around, rfl, hnext⟩
  · exact fun v hv => (hobeys v hv).leaves
  · intro v hv s flow hs hpos
    have hcall := (hobeys v hv).returns s
    have hloop := (hobeys v hv).breaks s
    cases flow with
    | normal => rfl
    | «break» => exact absurd (by rw [hpos]; rfl) (hloop hs)
    | «return» x => exact absurd (by rw [hpos]) (hcall x hs)

/-- A `break` starts in a body without a loop, which a loop of the program calls. -/
def breaksForCaller (v : Event) : Bool :=
  match v.report, v.position.activation with
  | .starts (.break _), .call _ (.program _) around => v.position.loops == 0 && around.any Stmt.isLoop
  | _, _ => false

/-- A function with a `break` and without a loop, called in a loop. -/
theorem loop_of_caller_out_of_sight :
    let c : Conditions := ⟨.ticking, 40⟩
    let p := Program.ofSource false "fun f() \x7b break; \x7d\nwhile (true) f();" 0
    let w := (initial.bound p).watch c p
    ∃ before v keyword f around, w.2 = before ++ [v] ∧ v.report = .starts (.break keyword) ∧
      v.position.activation = .call f (.program p) around ∧ around.any Stmt.isLoop ∧ v.machine.loopDepth = 0 ∧
      w.1.error? = some ⟨.breakOutsideLoop, keyword.line⟩ := by
  intro c p w
  have hp : (Parsed.ofTokens (Token.ofSource "fun f() \x7b break; \x7d\nwhile (true) f();") 0).errors = [] := by
    decide +kernel
  have hb : initial.bind p = .ok (initial.bound p) := bind_eq_bound (by decide +kernel)
  obtain ⟨-, htext, hbreak, -⟩ := breaks_and_returns_obey_the_text .initial hp hb (rfl : _ = (w.1, w.2))
  have hany : w.2.any breaksForCaller = true := by decide +kernel
  obtain ⟨v, hv, hin⟩ := List.any_eq_true.1 hany
  obtain ⟨before, after, hlog⟩ := List.append_of_mem hv
  unfold breaksForCaller at hin
  split at hin
  · next keyword f body around hr ha =>
    simp only [Bool.and_eq_true, beq_iff_eq] at hin
    obtain ⟨ho, hs⟩ := htext v hv
    obtain ⟨-, hl, -⟩ := hs _ hr
    have hend := hbreak before v after keyword hlog hr
    rw [if_pos hin.1] at hend
    rw [ha] at ho
    cases ho
    exact ⟨before, v, keyword, f, around, by rw [hlog, hend.1], hr, ha, hin.2, hl.trans hin.1, hend.2⟩
  · cases hin

end Interpreter

end LoxLang
