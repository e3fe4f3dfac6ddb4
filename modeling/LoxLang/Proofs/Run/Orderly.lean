import LoxLang.Proofs.Run.Watched
import LoxLang.Proofs.Run.Steady

namespace LoxLang

/-- What is told of a place. -/
abbrev Told := Position × Report

/-- How a statement ends when one directly inside it has ended so. -/
def Stmt.passing (s : Stmt) : Flow → Flow
  | .break => if s.isLoop then .normal else .break
  | flow => flow

namespace Activation

/-- What the call gives if its body has returned a value. -/
def outcome : Activation → Flow → List Told
  | .call f caller around, .return value =>
    if f.initializes then [] else [(⟨.call f caller around, []⟩, .results value)]
  | _, _ => []

/-- What has to be told next when a statement inside the ones told has ended: they end too, from the inside out, up to
the loop that a `break` was for; a `return` ends all of them, and the body is left. -/
def unwinding (a : Activation) : List Stmt → Flow → List Told
  | _, .normal => []
  | [], flow => (⟨a, []⟩, .leaves flow) :: a.outcome flow
  | s :: around, flow => (⟨a, around⟩, .ends s (s.passing flow)) :: a.unwinding around (s.passing flow)

@[simp]
theorem unwinding_normal (a : Activation) (around : List Stmt) : a.unwinding around .normal = [] := by
  cases around <;> rfl

/-- The statements told end in turn, and other ones are around them. -/
def ended (a : Activation) (flow : Flow) (outer : List Stmt) : List Stmt → List Told
  | [] => []
  | s :: inner => (⟨a, inner ++ outer⟩, .ends s flow) :: a.ended flow outer inner

/-- A `return` ends all statements around it, then the body, and then its call gives the value. -/
theorem unwinding_return (a : Activation) (around : List Stmt) (x : Value) :
    a.unwinding around (.return x) =
      a.ended (.return x) [] around ++ (⟨a, []⟩, .leaves (.return x)) :: a.outcome (.return x) := by
  induction around with
  | nil => rfl
  | cons s around ih => simp [unwinding, ended, Stmt.passing, ih]

/-- A `break` ends the statements around it as far as the nearest loop, which ends normally. -/
theorem unwinding_break {around : List Stmt} (a : Activation) (h : around.countP Stmt.isLoop ≠ 0) :
    ∃ inner condition body outer, around = inner ++ .loop condition body :: outer ∧ (∀ s ∈ inner, s.isLoop = false) ∧
      a.unwinding around .break =
        a.ended .break (.loop condition body :: outer) inner ++
          [(⟨a, outer⟩, .ends (.loop condition body) .normal)] := by
  induction around with
  | nil => exact absurd rfl h
  | cons s around ih =>
    cases hs : s.isLoop with
    | true =>
      cases s <;> cases hs
      exact ⟨[], _, _, around, rfl, by simp, by simp [unwinding, ended, Stmt.passing, Stmt.isLoop]⟩
    | false =>
      rw [List.countP_cons_of_neg (by simp [hs])] at h
      obtain ⟨inner, condition, body, outer, rfl, hinner, hu⟩ := ih h
      refine ⟨s :: inner, condition, body, outer, rfl, ?_, ?_⟩
      · simpa [hs] using hinner
      · simp [unwinding, ended, Stmt.passing, hs, hu]

end Activation

def Position.unwinding (p : Position) (flow : Flow) : List Told := p.activation.unwinding p.around flow

@[simp]
theorem Position.unwinding_normal (p : Position) : p.unwinding .normal = [] := p.activation.unwinding_normal p.around

/-- A statement does not end normally inside another: then that one ends next. -/
theorem Position.unwinding_within (p : Position) (s : Stmt) {flow : Flow} (h : flow ≠ .normal) :
    (p.within s).unwinding flow = (p, .ends s (s.passing flow)) :: p.unwinding (s.passing flow) := by
  cases flow <;> first | rfl | exact absurd rfl h

/-- What has to be told directly after something has been. -/
def Report.due (p : Position) : Report → List Told
  | .starts (.break keyword) => if p.loops = 0 then [] else [(p, .ends (.break keyword) .break)]
  | .ends _ flow => p.unwinding flow
  | .leaves flow => p.activation.outcome flow
  | _ => []

/-- The report is of a value, not of how statements and bodies start and end. -/
def Report.Idle : Report → Prop
  | .yields _ _ | .seeks _ _ | .reads _ _ _ _ | .builds _ _ | .results _ => True
  | _ => False

theorem Report.Idle.due_eq {report : Report} (h : report.Idle) (p : Position) : Report.due p report = [] := by
  cases report <;> first | rfl | cases h

namespace Event

def due (v : Event) : List Told := v.report.due v.position

/-- A `break` starts that is inside no loop of its body. -/
def Stray (v : Event) (keyword : Token) : Prop := v.report = .starts (.break keyword) ∧ v.position.loops = 0

/-- The event is as the text of the program has it. -/
structure Obeys (program : List Stmt) (v : Event) : Prop where
  origin : v.position.activation.origin = program
  starts : ∀ s, v.report = .starts s →
    v.position.Has s ∧ v.machine.loopDepth = v.position.loops ∧ v.machine.callDepth = v.position.activation.depth
  breaks : ∀ s, v.report = .ends s .break → v.position.loops ≠ 0
  returns : ∀ s x, v.report = .ends s (.return x) → v.position.activation ≠ .program program
  leaves : v.report ≠ .leaves .break

end Event

theorem Report.Idle.obeys {program : List Stmt} {v : Event} (h : v.report.Idle)
    (ho : v.position.activation.origin = program) : v.Obeys program := by
  obtain ⟨p, report, m⟩ := v
  cases report with
  | starts | ends | leaves => cases h
  | _ => exact ⟨ho, by simp, by simp, by simp, by simp⟩

/-- Each event of a log is directly followed by what is due after it, which may reach into what follows the log. -/
def Orderly (next : List Told) : List Event → Prop
  | [] => True
  | v :: log => v.due <+: log.map Event.told ++ next ∧ Orderly next log

/-- What is due at the end of the first log comes first in the second. -/
theorem Orderly.append {next next' : List Told} {log log' : List Event} (h : Orderly next log) (h' : Orderly next' log')
    (hnext : next <+: log'.map Event.told ++ next') : Orderly next' (log ++ log') := by
  induction log with
  | nil => exact h'
  | cons v log ih =>
    refine ⟨?_, ih h.2⟩
    change v.due <+: (log ++ log').map Event.told ++ next'
    rw [List.map_append, List.append_assoc]
    exact h.1.trans ((List.prefix_append_right_inj _).2 hnext)

theorem Orderly.mono {next next' : List Told} {log : List Event} (h : Orderly next log) (hnext : next <+: next') :
    Orderly next' log := by
  have hnil : Orderly next' [] := trivial
  have := h.append hnil hnext
  rwa [List.append_nil] at this

/-- What follows an event of the log. -/
theorem Orderly.follows {next : List Told} {before after : List Event} {v : Event}
    (h : Orderly next (before ++ v :: after)) : v.due <+: after.map Event.told ++ next := by
  induction before with
  | nil => exact h.1
  | cons u before ih => exact ih h.2

/-- What is due when a computation has ended. An error is the end of all. -/
def Eval.Outcome.due {α : Type} (rest : α → List Told) : Eval.Outcome α → List Told
  | .done a _ => rest a
  | _ => []

/-- A log comes to a stray `break` only at its end, and it does if and only if the error is that of the `break`. -/
inductive Halts : Option RuntimeError → List Event → Prop
  | clear {error : Option RuntimeError} {log : List Event} (hlog : ∀ v ∈ log, ∀ keyword, ¬v.Stray keyword)
    (he : ∀ e ∈ error, e.cause ≠ .breakOutsideLoop) : Halts error log
  | stray {log : List Event} {v : Event} {keyword : Token} (hlog : ∀ v ∈ log, ∀ keyword, ¬v.Stray keyword)
    (hv : v.Stray keyword) : Halts (some ⟨.breakOutsideLoop, keyword.line⟩) (log ++ [v])

theorem Halts.no_stray {log : List Event} (h : Halts none log) : ∀ v ∈ log, ∀ keyword, ¬v.Stray keyword := by
  cases h
  assumption

/-- A stray `break` is the end. -/
theorem Halts.at_stray {error : Option RuntimeError} {before after : List Event} {v : Event} {keyword : Token}
    (h : Halts error (before ++ v :: after)) (hv : v.Stray keyword) :
    after = [] ∧ error = some ⟨.breakOutsideLoop, keyword.line⟩ := by
  generalize hlog : before ++ v :: after = log at h
  cases h with
  | clear hclear _ => exact absurd hv (hclear v (by simp [← hlog]) keyword)
  | @stray log u keyword' hclear hu =>
    rcases List.eq_nil_or_concat after with rfl | ⟨later, w, rfl⟩
    · obtain ⟨-, hvu⟩ := List.append_inj' hlog rfl
      cases hvu
      have hk : Report.starts (.break keyword') = .starts (.break keyword) := hu.1.symm.trans hv.1
      cases hk
      exact ⟨rfl, rfl⟩
    · rw [List.concat_eq_append, ← List.cons_append, ← List.append_assoc] at hlog
      obtain ⟨hlog, -⟩ := List.append_inj' hlog rfl
      exact absurd hv (hclear v (by simp [← hlog]) keyword)

theorem Halts.after {error : Option RuntimeError} {log log' : List Event} (h : Halts none log) (h' : Halts error log') :
    Halts error (log ++ log') := by
  have both : ∀ {log'' : List Event}, (∀ v ∈ log'', ∀ keyword, ¬v.Stray keyword) →
      ∀ v ∈ log ++ log'', ∀ keyword, ¬v.Stray keyword :=
    fun h'' v hv => (List.mem_append.1 hv).elim (h.no_stray v) (h'' v)
  cases h' with
  | clear hlog he => exact .clear (both hlog) he
  | stray hlog hv =>
    rw [← List.append_assoc]
    exact .stray (both hlog) hv

namespace Watched
open Telling

variable {α β : Type} {program : List Stmt} {loops calls : Nat} {due : List Told}

/-- A computation, started in a machine: what is due comes first, all events obey the text, each is directly followed by
what is due after it, and what is due when all has ended is told by the value. -/
structure Meets (program : List Stmt) (due : List Told) (x : Watched α) (rest : α → List Told) (Q : α → Prop)
    (m : Machine) : Prop where
  obeys : ∀ v ∈ (x m).2, v.Obeys program
  prompt : due <+: (x m).2.map Event.told ++ (x m).1.due rest
  orderly : Orderly ((x m).1.due rest) (x m).2
  halts : Halts (x m).1.error? (x m).2
  done : ∀ a m', (x m).1 = .done a m' → m'.frame = m.frame ∧ Q a

/-- The same in every machine with so many loops and calls. -/
def Runs (program : List Stmt) (loops calls : Nat) (due : List Told) (x : Watched α) (rest : α → List Told)
    (Q : α → Prop) : Prop :=
  ∀ m : Machine, m.loopDepth = loops → m.callDepth = calls → Meets program due x rest Q m

/-- Nothing is due before, nothing after. -/
abbrev Quiet (program : List Stmt) (loops calls : Nat) (x : Watched α) : Prop :=
  Runs program loops calls [] x (fun _ => []) fun _ => True

namespace Runs

variable {x : Watched α} {rest rest' : α → List Told} {Q Q' : α → Prop}

/-- A computation that gives a known value and changes nothing. -/
theorem known {y : Eval α} {a : α} (hy : ∀ m : Machine, m.loopDepth = loops → y m = .done a m) (hdue : due <+: rest a)
    (ha : Q a) : Runs program loops calls due (Telling.silent y) rest Q := by
  intro m hl _
  have hm : (silent y : Watched α) m = (.done a m, []) := congrArg (·, []) (hy m hl)
  constructor
  all_goals rw [hm]
  case obeys => rintro v ⟨⟩
  case prompt => exact hdue
  case orderly => trivial
  case halts => exact .clear (by rintro v ⟨⟩) (by rintro e ⟨⟩)
  case done =>
    rintro _ _ ⟨⟩
    exact ⟨rfl, ha⟩

theorem pure {a : α} (hdue : due <+: rest a) (ha : Q a) : Runs program loops calls due (Pure.pure a) rest Q :=
  known (y := Pure.pure a) (fun _ _ => rfl) hdue ha

theorem silent {y : Eval α} (hy : y.Steady) (hQ : y.Gives Q) : Runs program loops calls [] (silent y) rest Q := by
  intro m _ _
  refine ⟨by rintro v ⟨⟩, List.nil_prefix, trivial, .clear (by rintro v ⟨⟩) (hy.cause m), fun a m' h => ?_⟩
  exact ⟨hy.frame m a m' h, hQ m a m' h⟩

theorem quiet {y : Eval α} (hy : y.Steady) : Quiet program loops calls (Telling.silent y) :=
  silent hy y.gives_any

theorem exhausted : Runs program loops calls [] (Telling.silent (Eval.exhausted : Eval α)) rest Q := by
  intro m _ _
  refine ⟨by rintro v ⟨⟩, List.nil_prefix, trivial, .clear (by rintro v ⟨⟩) (by rintro e ⟨⟩), ?_⟩
  rintro _ _ ⟨⟩

theorem weaken (h : Runs program loops calls due x rest Q) (hrest : ∀ a, Q a → rest a <+: rest' a)
    (hQ : ∀ a, Q a → Q' a) : Runs program loops calls due x rest' Q' := by
  intro m hl hc
  obtain ⟨hobeys, hprompt, horderly, hhalts, hdone⟩ := h m hl hc
  have hdue : (x m).1.due rest <+: (x m).1.due rest' := by
    cases ho : (x m).1 with
    | done a m' => exact hrest a (hdone a m' ho).2
    | _ => exact List.nil_prefix
  refine ⟨hobeys, ?_, horderly.mono hdue, hhalts, fun a m' ho => (hdone a m' ho).imp_right (hQ a)⟩
  exact hprompt.trans ((List.prefix_append_right_inj _).2 hdue)

/-- One after another: what is due after the first comes first in the second. -/
theorem bind {f : α → Watched β} {rest' : β → List Told} {Q' : β → Prop} (hx : Runs program loops calls due x rest Q)
    (hf : ∀ a, Q a → Runs program loops calls (rest a) (f a) rest' Q') :
    Runs program loops calls due (x >>= f) rest' Q' := by
  intro m hl hc
  obtain ⟨hobeys, hprompt, horderly, hhalts, hdone⟩ := hx m hl hc
  rcases hxm : x m with ⟨⟨a, m'⟩ | ⟨e, m'⟩ | _, log⟩
  · rw [hxm] at hobeys hprompt horderly hhalts hdone
    obtain ⟨hframe, hQ⟩ := hdone a m' rfl
    obtain ⟨hobeys', hprompt', horderly', hhalts', hdone'⟩ :=
      hf a hQ m' ((congrArg Machine.Frame.loopDepth hframe).trans hl)
        ((congrArg Machine.Frame.callDepth hframe).trans hc)
    constructor
    all_goals rw [bind_done hxm]
    case obeys => exact fun v hv => (List.mem_append.1 hv).elim (hobeys v) (hobeys' v)
    case prompt =>
      rw [List.map_append, List.append_assoc]
      exact hprompt.trans ((List.prefix_append_right_inj _).2 hprompt')
    case orderly => exact horderly.append horderly' hprompt'
    case halts => exact hhalts.after hhalts'
    case done => exact fun b m'' ho => (hdone' b m'' ho).imp_left (Eq.trans · hframe)
  · rw [hxm] at hobeys hprompt horderly hhalts
    constructor
    all_goals rw [bind_failed hxm]
    case obeys => exact hobeys
    case prompt => exact hprompt
    case orderly => exact horderly
    case halts => exact hhalts
    case done => rintro _ _ ⟨⟩
  · rw [hxm] at hobeys hprompt horderly hhalts
    constructor
    all_goals rw [bind_exhausted hxm]
    case obeys => exact hobeys
    case prompt => exact hprompt
    case orderly => exact horderly
    case halts => exact hhalts
    case done => rintro _ _ ⟨⟩

/-- What is told is as the text has it, and a `break` that starts is inside a loop. -/
theorem tell {p : Position} {report : Report} (hv : ∀ m : Machine, m.loopDepth = loops → m.callDepth = calls →
      Event.Obeys program ⟨p, report, m⟩)
    (hs : ∀ keyword, report = .starts (.break keyword) → p.loops ≠ 0)
    (hdue : due <+: (p, report) :: Report.due p report) :
    Runs program loops calls due (tell p report) (fun _ => Report.due p report) fun _ => True := by
  intro m hl hc
  constructor
  case obeys =>
    rintro _ (_ | ⟨_, ⟨⟩⟩)
    exact hv m hl hc
  case prompt => exact hdue
  case orderly => exact ⟨List.prefix_refl _, trivial⟩
  case halts =>
    refine .clear ?_ (by rintro e ⟨⟩)
    rintro _ (_ | ⟨_, ⟨⟩⟩) keyword ⟨hr, hp⟩
    exact hs keyword hr hp
  case done =>
    rintro _ _ ⟨⟩
    exact ⟨rfl, trivial⟩

/-- What is told of the value is due directly before. -/
theorem telling {p : Position} {report : α → Report}
    (hx : Runs program loops calls due x (fun a => (p, report a) :: Report.due p (report a)) Q)
    (hv : ∀ a, Q a → ∀ m : Machine, m.loopDepth = loops → m.callDepth = calls → Event.Obeys program ⟨p, report a, m⟩)
    (hs : ∀ a s, report a ≠ .starts s) :
    Runs program loops calls due (telling p report x) (fun a => Report.due p (report a)) Q := by
  apply hx.bind
  intro a ha
  apply (Runs.tell (hv a ha) (fun keyword h => absurd h (hs a _)) (List.prefix_refl _)).bind
  intro _ _
  exact Runs.pure (List.prefix_refl _) ha

/-- Nothing is due for what is told of a value. -/
theorem note {p : Position} {report : Report} (ho : p.activation.origin = program) (hr : report.Idle) :
    Quiet program loops calls (Watched.tell p report) := by
  have htell : Runs program loops calls [] (Watched.tell p report) (fun _ => Report.due p report) fun _ => True := by
    refine tell (fun m _ _ => Report.Idle.obeys hr ho) ?_ List.nil_prefix
    rintro keyword rfl
    cases hr
  rwa [hr.due_eq p] at htell

/-- A value is told where it may be due. -/
theorem idle {p : Position} {report : α → Report} (hx : Runs program loops calls due x (fun a => [(p, report a)]) Q)
    (ho : p.activation.origin = program) (hr : ∀ a, (report a).Idle) :
    Runs program loops calls due (Watched.telling p report x) (fun _ => []) Q := by
  have hdue : (fun a => Report.due p (report a)) = fun _ => [] := funext fun a => (hr a).due_eq p
  rw [← hdue]
  refine telling ?_ (fun a _ m _ _ => Report.Idle.obeys (hr a) ho) fun a s hs => ?_
  · exact hx.weaken (fun a _ => by simp [(hr a).due_eq p]) fun _ h => h
  · have hidle := hr a
    rw [hs] at hidle
    exact hidle

/-- Between two changes of the frame that belong together. -/
theorem between {m m₁ : Machine} {restore : Machine → Machine} {y : Watched α} (hx : Meets program due x rest Q m₁)
    (hy : y m = (Eval.restoring restore x.plain m₁, (x m₁).2))
    (hframe : ∀ m', m'.frame = m₁.frame → (restore m').frame = m.frame) : Meets program due y rest Q m := by
  obtain ⟨hobeys, hprompt, horderly, hhalts, hdone⟩ := hx
  unfold Eval.restoring plain at hy
  rcases hxm : x m₁ with ⟨⟨a, m'⟩ | ⟨e, m'⟩ | _, log⟩
  all_goals
    rw [hxm] at hobeys hprompt horderly hhalts hdone hy
    constructor
    all_goals rw [hy]
  case done.done =>
    rintro _ _ ⟨⟩
    exact (hdone a m' rfl).imp_left (hframe m')
  case failed.done | exhausted.done => rintro _ _ ⟨⟩
  all_goals assumption

/-- To enter a scope tells nothing. -/
theorem inScope (s : ScopeId) (hx : Runs program loops calls due x rest Q) :
    Runs program loops calls due (inScope s x) rest Q := by
  intro m hl hc
  refine between (hx { m with scope := s } hl hc) rfl fun m' h => ?_
  simp only [Machine.frame, Machine.Frame.mk.injEq, true_and] at h ⊢
  exact h.2

theorem inLoop (hx : Runs program (loops + 1) calls due x rest Q) :
    Runs program loops calls due (inLoop x) rest Q := by
  intro m hl hc
  refine between (hx { m with loopDepth := m.loopDepth + 1 } (congrArg (· + 1) hl) hc) rfl fun m' h => ?_
  simp only [Machine.frame, Machine.Frame.mk.injEq] at h ⊢
  refine ⟨h.1, ?_, ?_⟩ <;> omega

theorem outsideLoops (hx : Runs program 0 calls due x rest Q) :
    Runs program loops calls due (outsideLoops x) rest Q := by
  intro m _ hc
  refine between (hx { m with loopDepth := 0 } rfl hc) rfl fun m' h => ?_
  simp only [Machine.frame, Machine.Frame.mk.injEq, true_and] at h ⊢
  exact ⟨h.1, h.2.2⟩

theorem inCall (hx : Runs program loops (calls + 1) due x rest Q) :
    Runs program loops calls due (inCall x) rest Q := by
  intro m hl hc
  refine between (hx { m with callDepth := m.callDepth + 1 } hl (congrArg (· + 1) hc)) rfl fun m' h => ?_
  simp only [Machine.frame, Machine.Frame.mk.injEq] at h ⊢
  refine ⟨h.1, ?_, ?_⟩ <;> omega

/-- The turns of a loop. A `break` of the body ends them. -/
theorem turns {condition : Watched Bool} {body : Watched Flow} {rest rest' : Flow → List Told} {R R' : Flow → Prop}
    (hc : Quiet program loops calls condition) (hb : Runs program loops calls [] body rest' R')
    (hnormal : rest' .normal = []) (hbreak : rest' .break <+: rest .normal)
    (hreturn : ∀ x, rest' (.return x) <+: rest (.return x)) (hn : R .normal)
    (hr : ∀ x, R' (.return x) → R (.return x)) (fuel : Nat) :
    Runs program loops calls [] (turns condition body fuel) rest R := by
  induction fuel with
  | zero => exact .exhausted
  | succ fuel ih =>
    apply hc.bind
    intro holds _
    cases holds with
    | false => exact .pure List.nil_prefix hn
    | true =>
      apply hb.bind
      intro flow hflow
      cases flow with
      | normal =>
        rw [hnormal]
        exact ih
      | «break» => exact .pure hbreak hn
      | «return» x => exact .pure (hreturn x) (hr x hflow)

/-- The first statement that does not end normally is the last. -/
theorem sequence {step : Stmt → Watched Flow} {rest : Flow → List Told} {R : Flow → Prop} {ss : List Stmt}
    (hs : ∀ s ∈ ss, Runs program loops calls [] (step s) rest R) (hnormal : rest .normal = []) (hn : R .normal) :
    Runs program loops calls [] (Operations.sequence step ss) rest R := by
  induction ss with
  | nil => exact .pure List.nil_prefix hn
  | cons s ss ih =>
    apply (hs s List.mem_cons_self).bind
    intro flow hflow
    cases flow with
    | normal =>
      rw [hnormal]
      exact ih fun t ht => hs t (List.mem_cons_of_mem s ht)
    | «break» => exact .pure (List.prefix_refl _) hflow
    | «return» value => exact .pure (List.prefix_refl _) hflow

theorem values {step : Expr → Watched Value} (hs : ∀ e, Quiet program loops calls (step e)) (es : List Expr) :
    Quiet program loops calls (Operations.values step es) := by
  induction es with
  | nil => exact .pure List.nil_prefix trivial
  | cons e es ih => exact (hs e).bind fun x _ => ih.bind fun xs _ => .pure List.nil_prefix trivial

end Runs

end Watched

end LoxLang
