import LoxLang.Proofs.Run.Receivers.Events

namespace LoxLang

variable {setting : Setting} {N : Notes} {fuel : Nat} {m m' : Machine} {p : Position} {a : Activation}
  {shape outer : Shape}

namespace Watched
open Telling

/-- With so much fuel, all that is watched has each function with its receiver. -/
structure OnwardAt (setting : Setting) (N : Notes) (fuel : Nat) : Prop where
  evaluate : ∀ {m shape} p e, m.Stands N p.activation shape → e.Aimed N shape →
    Yields N m (evaluate setting fuel p e)
  execute : ∀ {m outer} p s, m.Stands N p.activation (false :: outer) → s.Aimed N (false :: outer) →
    Ends N m (execute setting fuel p s)
  call : ∀ {m} p callee arguments paren, m.Proper N → p.activation.Proper N m.store → callee.Proper N m.store →
    (∀ v ∈ arguments, Value.Proper N m.store v) → Yields N m (call setting fuel p callee arguments paren)
  run : ∀ {m} p f arguments, m.Proper N → f.Proper N m.store → (∀ v ∈ arguments, Value.Proper N m.store v) →
    Yields N m (run setting fuel p f arguments)

namespace OnwardAt

/-- One level more for expressions. A method is read with its instance, and a class that is called has its initializer
bound to the new one. -/
theorem evaluate_succ (h : OnwardAt setting N fuel) (p : Position) (e : Expr) (hc : m.Stands N p.activation shape)
    (ha : e.Aimed N shape) :
    Yields N m (Watched.evaluate setting (fuel + 1) p e) := by
  have yields : ∀ {x : Watched Value}, Yields N m x → Yields N m (telling p (.yields e) x) :=
    fun hx => hx.telling hc.activation fun _ _ _ hv => hv
  cases e with
  | literal value => exact yields (.pure hc.proper (Literal.value_plain value).proper)
  | group inner => exact yields (h.evaluate p inner hc ha)
  | unary operator operand =>
    apply yields
    apply (h.evaluate p operand hc ha).bind
    intro x m₁ hl₁ _
    exact .silent (Eval.lift_onward hl₁.proper fun v hv => Value.unary_plain hv)
  | binary left operator right =>
    apply yields
    apply (h.evaluate p left hc ha.1).bind
    intro x m₁ hl₁ _
    apply (h.evaluate p right (hc.onward hl₁) ha.2).bind
    intro y m₂ hl₂ _
    exact .silent (Eval.lift_onward hl₂.proper fun v hv => Value.binary_plain hv)
  | logical left operator right =>
    apply yields
    apply (h.evaluate p left hc ha.1).bind
    intro x m₁ hl₁ hx
    split
    · exact .pure hl₁.proper hx
    · exact h.evaluate p right (hc.onward hl₁) ha.2
  | ternary condition thenBranch elseBranch =>
    apply yields
    apply (h.evaluate p condition hc ha.1).bind
    intro x m₁ hl₁ _
    split
    · exact h.evaluate p thenBranch (hc.onward hl₁) ha.2.1
    · exact h.evaluate p elseBranch (hc.onward hl₁) ha.2.2
  | «variable» id name => exact yields (.silent (Eval.readName_onward setting id name hc.proper))
  | this id keyword =>
    apply yields
    obtain ⟨hname, d, hd, hdistance⟩ := ha
    obtain ⟨x, hget, hx⟩ := Eval.getAt_of_findIdx? hc.proper (hc.shaped.shape_eq ▸ hd)
    have hseeks : Report.Proper N p m (.seeks id keyword) :=
      ⟨d, x, hdistance, hname ▸ hget, hc.receiver ▸ hx⟩
    apply (Onward.tell hc.proper hc.activation hseeks).bind
    rintro _ _ - rfl
    exact .silent (Eval.readName_onward setting id keyword hc.proper)
  | assign id name value =>
    apply yields
    apply (h.evaluate p value hc ha.2).bind
    intro x m₁ hl₁ hx
    apply (Onward.silent (Eval.assignName_onward setting id hl₁.proper hx ha.1)).bind
    intro _ m₂ hl₂ _
    exact .pure hl₂.proper (hx.keeps hl₂.keeps)
  | call callee paren given =>
    apply yields
    apply (h.evaluate p callee hc ha.1).bind
    intro f m₁ hl₁ hf
    have hgiven : Onward N m₁ (Operations.values (Watched.evaluate setting fuel p) given) fun vs m' =>
        ∀ v ∈ vs, v.Proper N m'.store :=
      .values hl₁.proper fun e he m' hl' => h.evaluate p e (hc.onward (hl₁.trans hl')) (.of_mem ha.2 he)
    apply hgiven.bind
    intro arguments m₂ hl₂ harguments
    have hactivation := (hc.onward (hl₁.trans hl₂)).activation
    exact h.call p f arguments paren hl₂.proper hactivation (hf.keeps hl₂.keeps) harguments
  | get object name =>
    apply yields
    apply (h.evaluate p object hc ha).bind
    intro x m₁ hl₁ hx
    cases x with
    | «instance» id cls =>
      have hread := Onward.silent (Eval.property_onward id name hl₁.proper hx)
      have hactivation := (hc.onward hl₁).activation
      refine (hread.telling hactivation fun v m' _ hv => ?_).imp fun v m' _ hv => hv.1
      exact hv
    | _ => exact .silent (.refl hl₁.proper)
  | set object name value =>
    apply yields
    apply (h.evaluate p object hc ha.1).bind
    intro x m₁ hl₁ hx
    cases x with
    | «instance» id cls =>
      apply (h.evaluate p value (hc.onward hl₁) ha.2).bind
      intro y m₂ hl₂ hy
      apply (Onward.silent (Eval.setField_onward hl₂.proper hy)).bind
      intro _ m₃ hl₃ _
      exact .pure hl₃.proper (hy.keeps hl₃.keeps)
    | _ => exact .silent (.refl hl₁.proper)

/-- A statement is told where it is, as it starts and as it ends. -/
theorem started {x : Watched Flow} {s : Stmt} (hc : m.Stands N p.activation shape)
    (hx : Onward N m x fun flow m' => flow.Proper N m'.store ∧ ∀ f, s = .function f →
      ∃ id, m'.store.cell? m.scope f.name.lexeme = some (some (.function ⟨id, f, m.scope, false⟩))) :
    Ends N m (do tell p (.starts s); telling p (.ends s) x) := by
  have hstart : Report.Proper N p m (.starts s) := hc.receiver
  apply (Onward.tell hc.proper hc.activation hstart).bind
  rintro _ _ - rfl
  refine (hx.telling hc.activation fun flow m' hl hflow => ?_).imp fun flow m' hl hflow => hflow.1
  refine ⟨(hc.onward hl).receiver, hflow.1, fun f hf => ?_⟩
  rw [hl.scope]
  exact hflow.2 f hf

/-- Statements one after another, in a scope of their own. -/
theorem sequence (h : OnwardAt setting N fuel) (p : Position) {ss : List Stmt}
    (hc : m.Stands N p.activation (false :: outer)) (ha : Stmt.AimedAll N (false :: outer) ss) :
    Ends N m (Operations.sequence (Watched.execute setting fuel p) ss) :=
  .sequence hc.proper fun s hs _ hl => h.execute p s (hc.onward hl) (.of_mem ha hs)

/-- One level more for statements, in a body whose text has the shape told. -/
theorem execute_succ (h : OnwardAt setting N fuel) (p : Position) (s : Stmt)
    (hc : m.Stands N p.activation (false :: outer)) (ha : s.Aimed N (false :: outer)) :
    Ends N m (Watched.execute setting (fuel + 1) p s) := by
  have other : ∀ {x : Watched Flow}, (∀ f, s ≠ .function f) →
      Ends N m x →
      Ends N m (do tell p (.starts s); telling p (.ends s) x) :=
    fun hs hx => started hc (hx.imp fun flow m' _ hflow => ⟨hflow, fun f hf => absurd hf (hs f)⟩)
  have normal : ∀ {m' : Machine}, m'.Proper N → Ends N m' (pure .normal) := fun hm => .pure hm trivial
  cases s with
  | expression value =>
    rw [Watched.execute]
    apply other (by simp)
    apply (h.evaluate (p.within _) value hc ha).bind
    intro _ m₁ hl₁ _
    exact normal hl₁.proper
  | print value =>
    rw [Watched.execute]
    apply other (by simp)
    apply (h.evaluate (p.within _) value hc ha).bind
    intro x m₁ hl₁ _
    apply (Onward.silent (Eval.print_onward hl₁.proper)).bind
    intro _ m₂ hl₂ _
    exact normal hl₂.proper
  | var name initializer =>
    cases initializer with
    | none =>
      rw [Watched.execute]
      apply other (by simp)
      rw [statement_simple setting fuel p rfl]
      refine .silent (Eval.onward_read (Eval.onward_bind
        (Eval.declare_onward hc.proper hc.shaped.lt ha hc.shaped.not_has) fun _ m₁ hl₁ _ => ?_))
      exact ⟨.refl hl₁.proper, trivial⟩
    | some value =>
      rw [Watched.execute]
      apply other (by simp)
      apply (h.evaluate (p.within _) value hc ha.2).bind
      intro x m₁ hl₁ hx
      have hshaped := (hc.onward hl₁).shaped
      have hdefine := Eval.define_onward hl₁.proper hshaped.lt ha.1 hshaped.not_has hx
      apply Onward.reading
      apply (Onward.silent hdefine).bind
      intro _ m₂ hl₂ _
      exact normal hl₂.proper
  | block body =>
    rw [Watched.execute]
    apply other (by simp)
    apply Onward.reading
    apply (Onward.silent (Eval.childScope_onward hc.proper)).bind
    rintro n m₁ hl₁ ⟨rfl, hm₁⟩
    have hk : (m.store.child m.scope).2.Keeps m₁.store := hm₁ ▸ .refl _
    have hm : { m₁ with scope := m.store.next }.Proper N := hl₁.proper.of_eq rfl rfl
    exact .inScope (h.sequence (p.within _) (.enter hc.activation hc.shaped hc.receiver hm hk rfl) ha)
  | branch condition thenBranch elseBranch =>
    simp only [Watched.execute]
    apply other (by simp)
    cases elseBranch with
    | none =>
      apply (h.evaluate (p.within _) condition hc ha.1).bind
      intro x m₁ hl₁ _
      split
      · exact h.execute (p.within _) thenBranch (hc.onward hl₁) ha.2
      · exact normal hl₁.proper
    | some elseBranch =>
      apply (h.evaluate (p.within _) condition hc ha.1).bind
      intro x m₁ hl₁ _
      split
      · exact h.execute (p.within _) thenBranch (hc.onward hl₁) ha.2.1
      · exact h.execute (p.within _) elseBranch (hc.onward hl₁) ha.2.2
  | loop condition body =>
    rw [Watched.execute]
    apply other (by simp)
    have hc' : { m with loopDepth := m.loopDepth + 1 }.Stands N p.activation (false :: outer) := hc.of_eq rfl rfl rfl
    refine .inLoop (.turns hc'.proper (fun m' hl => ?_) (fun m' hl => ?_) fuel)
    · apply (h.evaluate (p.within _) condition (hc'.onward hl) ha.1).bind
      intro x m'' hl' _
      exact .pure hl'.proper trivial
    · exact h.execute (p.within _) body (hc'.onward hl) ha.2
  | «break» keyword =>
    rw [Watched.execute]
    apply other (by simp)
    rw [statement_simple setting fuel p rfl]
    refine .silent (Eval.onward_read ?_)
    split
    · exact .refl hc.proper
    · exact ⟨.refl hc.proper, trivial⟩
  | «return» keyword value =>
    cases value with
    | none =>
      rw [Watched.execute]
      exact other (by simp) (.pure hc.proper trivial)
    | some value =>
      rw [Watched.execute]
      apply other (by simp)
      apply (h.evaluate (p.within _) value hc ha).bind
      intro x m₁ hl₁ hx
      exact .pure hl₁.proper hx
  | function f =>
    rw [Watched.execute]
    rw [statement_simple setting fuel p rfl]
    refine started hc (.silent ((Eval.function_onward hc.proper hc.shaped ha.1 ha.2.1 ha.2.2).imp ?_))
    rintro _ m' - ⟨rfl, hcell⟩
    refine ⟨trivial, ?_⟩
    rintro _ ⟨⟩
    exact hcell
  | «class» name methods =>
    rw [Watched.execute]
    apply other (by simp)
    rw [statement_simple setting fuel p rfl]
    refine .silent ((Eval.class_onward hc.proper hc.shaped ha.1 ha.2).imp ?_)
    rintro _ m' - rfl
    trivial

theorem call_succ (h : OnwardAt setting N fuel) (p : Position) (callee : Value) (arguments : List Value)
    (paren : Token) (hm : m.Proper N) (hp : p.activation.Proper N m.store) (hf : callee.Proper N m.store)
    (ha : ∀ v ∈ arguments, v.Proper N m.store) :
    Yields N m (Watched.call setting (fuel + 1) p callee arguments paren) := by
  cases callee with
  | function f =>
    rw [Watched.call]
    apply (Onward.silent (Eval.checkCall_onward hm)).bind
    intro _ m₁ hl₁ _
    have hm₁ : { m₁ with callDepth := m₁.callDepth + 1 }.Proper N := hl₁.proper.of_eq rfl rfl
    apply Onward.inCall
    apply h.run p f arguments hm₁
    · exact Closure.Proper.keeps hf hl₁.keeps
    · exact fun v hv => (ha v hv).keeps hl₁.keeps
  | «class» c =>
    rw [Watched.call]
    apply (Onward.silent (Eval.checkCall_onward hm)).bind
    intro _ m₁ hl₁ _
    have hm₁ : { m₁ with callDepth := m₁.callDepth + 1 }.Proper N := hl₁.proper.of_eq rfl rfl
    apply Onward.inCall
    apply (Onward.silent (Eval.newObject_onward hm₁)).bind
    intro id m₂ hl₂ _
    have hk₂ : m.store.Keeps m₂.store := hl₁.keeps.trans hl₂.keeps
    have hc₂ : c.Proper N m₂.store := Class.Proper.keeps hf hk₂
    split
    · next method hinit =>
      apply (Onward.silent (Eval.bindThis_onward hl₂.proper hc₂ hinit)).bind
      rintro f m₃ hl₃ ⟨hbound, -, hi, hh⟩
      have hi : f.initializes = true := hi.trans (hc₂ "init" method hinit).of_init
      have hk₃ := hk₂.trans hl₃.keeps
      have hrun := h.run p f arguments hl₃.proper hbound fun v hv => (ha v hv).keeps hk₃
      have hbuild : Onward N m₃ (do let _ ← Watched.run setting fuel p f arguments; pure (.instance id c))
          fun v m' => Report.Proper N p m' (.builds f v) := by
        apply hrun.bind
        intro _ m₄ hl₄ _
        have hc₄ : c.Proper N m₄.store := hc₂.keeps (hl₃.keeps.trans hl₄.keeps)
        exact .pure hl₄.proper ⟨hc₄, hbound.keeps hl₄.keeps, hi, id, c, rfl, hh.keeps hl₄.keeps⟩
      exact (hbuild.telling (hp.keeps hk₃) fun _ _ _ hv => hv).imp fun _ _ _ hv => hv.1
    · exact .pure hl₂.proper hc₂
  | native f =>
    cases f
    rw [Watched.call]
    apply (Onward.silent (Eval.checkCall_onward hm)).bind
    intro _ m₁ hl₁ _
    have hm₁ : { m₁ with callDepth := m₁.callDepth + 1 }.Proper N := hl₁.proper.of_eq rfl rfl
    apply Onward.inCall
    apply (Onward.silent (Eval.readClock_onward setting.clock hm₁)).bind
    intro _ m₂ hl₂ _
    exact .pure hl₂.proper trivial
  | _ => exact .silent (.refl hm)

/-- The scope of a call is inside that of its function, so its nearest receiver is that of the function. -/
theorem run_succ (h : OnwardAt setting N fuel) (p : Position) (f : Closure) (arguments : List Value) (hm : m.Proper N)
    (hf : f.Proper N m.store) (ha : ∀ v ∈ arguments, v.Proper N m.store) :
    Yields N m (Watched.run setting (fuel + 1) p f arguments) := by
  have hp : (p.called f).activation.Proper N m.store := hf
  obtain ⟨shape, hs, hbody⟩ := hf.aimed
  obtain ⟨hparameters, hbody⟩ := hbody.body
  rw [Watched.run]
  refine (Onward.telling (Q := fun v m' => v.Proper N m'.store ∧ (f.initializes = true →
    ∃ id cls, v = .instance id cls ∧ m'.store.Hides f.scope v)) ?_ hp fun v m' _ hv => ?_).imp fun v m' _ hv => hv.1
  · apply (Onward.silent (Eval.childScope_onward hm)).bind
    rintro n m₁ hl₁ ⟨rfl, hm₁⟩
    have hchild : m₁.store.Shaped m.store.next (false :: shape) := hm₁ ▸ hs.child
    have ha₁ : ∀ v ∈ arguments, v.Proper N m₁.store := fun v hv => (ha v hv).keeps hl₁.keeps
    rw [defineAll_silent]
    apply (Onward.silent (Eval.defineAll_onward hl₁.proper hchild.lt hparameters hchild.not_has ha₁)).bind
    intro _ m₂ hl₂ _
    have hk : (m.store.child f.scope).2.Keeps m₂.store := hm₁ ▸ hl₂.keeps
    have hm₂ : { m₂ with loopDepth := 0, scope := m.store.next }.Proper N := hl₂.proper.of_eq rfl rfl
    have hsequence := h.sequence (p.called f) (.enter hp hs rfl hm₂ hk rfl) hbody
    have hk₂ := hl₁.keeps.trans hl₂.keeps
    have hleaves : ∀ flow m', Flow.Proper N m'.store flow → Report.Proper N (p.called f) m' (.leaves flow) :=
      fun _ _ h => h
    apply ((Onward.outsideLoops (.inScope hsequence)).telling (hp.keeps hk₂) fun flow m' _ => hleaves flow m').bind
    intro flow m₃ hl₃ hflow
    exact .silent (Eval.result_onward hl₃.proper (hf.keeps (hk₂.trans hl₃.keeps)) hflow)
  · refine ⟨hv.1, ?_⟩
    rintro _ _ _ ⟨⟩ hi
    exact hv.2 hi

end OnwardAt

theorem onwardAt (setting : Setting) (N : Notes) (fuel : Nat) : OnwardAt setting N fuel := by
  induction fuel with
  | zero => exact ⟨fun _ _ _ _ => .exhausted, fun _ _ _ _ => .exhausted, fun _ _ _ _ _ _ _ _ => .exhausted,
      fun _ _ _ _ _ _ => .exhausted⟩
  | succ fuel h => exact ⟨h.evaluate_succ, h.execute_succ, h.call_succ, h.run_succ⟩

/-- A program at the top level. -/
theorem runAll_onward (setting : Setting) (fuel : Nat) {program ss : List Stmt}
    (hc : m.Stands N (.program program) (false :: outer)) (ha : Stmt.AimedAll N (false :: outer) ss) :
    Onward N m (runAll setting fuel ⟨.program program, []⟩ ss) fun _ _ => True := by
  induction ss generalizing m with
  | nil => exact .pure hc.proper trivial
  | cons s ss ih =>
    apply ((onwardAt setting N fuel).execute ⟨.program program, []⟩ s hc ha.1).bind
    intro _ m' hl _
    exact ih (hc.onward hl) ha.2

end Watched

end LoxLang
