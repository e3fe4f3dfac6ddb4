import LoxLang.Proofs.Run.Steps

namespace LoxLang
open Scoping

variable {setting : Setting} {S : Site → Prop} {current : Option ScopeId} {fuel : Nat} {m m' : Machine} {c : Context}

/-- The distances of the setting are those of the sites. -/
def Setting.Agrees (setting : Setting) (S : Site → Prop) : Prop :=
  ∀ σ, S σ → setting.distances[σ.id]? = σ.distance?

/-- Where no names are added, the scope still stands for its place in the text. -/
theorem Leads.stands (h : Leads S none m m') (hs : m.store.Stands m.scope c) : m'.store.Stands m'.scope c := by
  rw [h.scope]
  exact hs.grows h.grows

namespace Safe
open Logged

theorem sound_one {σ : Site} {μ : Moment} (hσ : S σ) (h : μ.At σ) : Sound S μ.machine.store [μ] where
  at_site := by
    intro ν hν
    rw [List.mem_singleton.1 hν]
    exact ⟨σ, hσ, h⟩
  filled := by
    intro ν hν s name _ hf
    rw [List.mem_singleton.1 hν]
    exact hf
  remembered := List.pairwise_singleton _ _

/-- A read is at its site, where its cell is and is filled if it is to be. -/
theorem readName {form : Occurrence.Form} {id : OccurrenceId} {name : Token} (hD : setting.Agrees S)
    (h : m.Ok S) (hc : m.store.Stands m.scope c) (hσ : S ⟨⟨form, id, name⟩, c⟩) (hf : form ≠ .assign) :
    Safe S current m (readName setting form id name) fun v st => v.Ok S st where
  sound := sound_one (μ := ⟨⟨form, id, name⟩, setting, m⟩) hσ ⟨rfl, hc, hD _ hσ⟩
  outcome := (Eval.readName_safe setting id name h).imp (fun _ hl => hl) fun _ _ _ hv => hv
  remembered := by
    intro m' _ μ hμ s x _ ha
    rw [List.mem_singleton.1 hμ] at ha
    exact absurd ha.1 hf

theorem assignName {id : OccurrenceId} {name : Token} {v : Value} (hD : setting.Agrees S)
    (h : m.Ok S) (hc : m.store.Stands m.scope c) (hσ : S ⟨⟨.assign, id, name⟩, c⟩) (hv : v.Ok S m.store) :
    Safe S none m (assignName setting id name v) fun _ _ => True where
  sound := sound_one (μ := ⟨⟨.assign, id, name⟩, setting, m⟩) hσ ⟨rfl, hc, hD _ hσ⟩
  outcome := (Eval.assignName_safe setting id name h hv).imp (fun _ hl => hl) fun _ _ _ _ => trivial
  remembered := by
    intro m' hm' μ hμ s x _ ha
    rw [List.mem_singleton.1 hμ] at ha
    obtain ⟨-, hx, d, hd, hs⟩ := ha
    subst hx
    have he := Eval.assignName_of_holderAt v hd hs
    change m' ∈ (Eval.assignName setting id name v m).machine? at hm'
    rw [he] at hm'
    cases hm'
    have hh := (Store.has_of_holderAt hs).2
    exact (Store.filled_define hh.lt _ v _ _).2 (.inl ⟨rfl, rfl⟩)

/-- Where no scope gets a name, the machine stays at its place. -/
theorem stay {α : Type} {x : Logged α} {Q : α → Store → Prop} (h : Safe S none m x Q)
    (hc : m.store.Stands m.scope c) : Safe S (some m.scope) m x fun a st => Q a st ∧ st.Stands m.scope c :=
  (h.imp fun _ _ hl hQ => ⟨hQ, hc.grows hl.grows⟩).widen

end Safe

/-- With so much fuel, evaluation is safe wherever the machine stands for the place in the text. -/
structure SafeRuns (setting : Setting) (S : Site → Prop) (fuel : Nat) : Prop where
  evaluate : ∀ {m c} e, m.Ok S → m.store.Stands m.scope c → (∀ σ ∈ Expr.sites c e, S σ) →
    Safe S none m (Logged.evaluate setting fuel e) fun v st => v.Ok S st
  execute : ∀ {m c} s, m.Ok S → m.store.Stands m.scope c → c.initializing = none → (∀ σ ∈ Stmt.sites c s, S σ) →
    s.Tidy c → s.Formed →
    Safe S (some m.scope) m (Logged.execute setting fuel s) fun flow st =>
      flow.Ok S st ∧ st.Stands m.scope (c.after s)
  call : ∀ {m} callee arguments paren, m.Ok S → Value.Ok S m.store callee → (∀ v ∈ arguments, Value.Ok S m.store v) →
    Safe S none m (Logged.call setting fuel callee arguments paren) fun v st => v.Ok S st
  run : ∀ {m} f arguments, m.Ok S → f.Ok S m.store → (∀ v ∈ arguments, Value.Ok S m.store v) →
    arguments.length = f.arity → Safe S none m (Logged.run setting fuel f arguments) fun v st => v.Ok S st

namespace SafeRuns

theorem zero (setting : Setting) (S : Site → Prop) : SafeRuns setting S 0 where
  evaluate := fun _ _ _ _ => .exhausted
  execute := fun _ _ _ _ _ _ _ => .exhausted
  call := fun _ _ _ _ _ _ => .exhausted
  run := fun _ _ _ _ _ _ => .exhausted

theorem values (h : SafeRuns setting S fuel) (es : List Expr) (hm : m.Ok S) (hc : m.store.Stands m.scope c)
    (hs : ∀ σ ∈ Expr.sitesAll c es, S σ) :
    Safe S none m (Operations.values (Logged.evaluate setting fuel) es) fun vs st => ∀ v ∈ vs, v.Ok S st := by
  induction es generalizing m with
  | nil => exact .pure hm (by simp)
  | cons e es ih =>
    refine (h.evaluate e hm hc fun σ hσ => hs σ (List.mem_append_left _ hσ)).bind fun x m' hl hx => ?_
    refine (ih hl.ok (hl.stands hc) fun σ hσ => hs σ (List.mem_append_right _ hσ)).bind fun xs m'' hl' hxs => ?_
    refine .pure hl'.ok fun v hv => ?_
    rcases List.mem_cons.1 hv with rfl | hv
    · exact hx.grows hl'.grows
    · exact hxs v hv

theorem evaluate_succ (h : SafeRuns setting S fuel) (hD : setting.Agrees S) (e : Expr) (hm : m.Ok S)
    (hc : m.store.Stands m.scope c) (hs : ∀ σ ∈ e.sites c, S σ) :
    Safe S none m (Logged.evaluate setting (fuel + 1) e) fun v st => v.Ok S st := by
  cases e with
  | literal value => exact .pure hm (Literal.value_plain value).ok
  | group inner => exact h.evaluate inner hm hc hs
  | unary operator operand =>
    refine (h.evaluate operand hm hc hs).bind fun x m' hl _ => ?_
    exact .silent (Eval.lift_safe hl.ok fun v hv => Value.unary_plain hv)
  | binary left operator right =>
    refine (h.evaluate left hm hc fun σ hσ => hs σ (List.mem_append_left _ hσ)).bind fun x m' hl _ => ?_
    refine (h.evaluate right hl.ok (hl.stands hc) fun σ hσ => hs σ (List.mem_append_right _ hσ)).bind
      fun y m'' hl' _ => ?_
    exact .silent (Eval.lift_safe hl'.ok fun v hv => Value.binary_plain hv)
  | logical left operator right =>
    refine (h.evaluate left hm hc fun σ hσ => hs σ (List.mem_append_left _ hσ)).bind fun x m' hl hx => ?_
    split
    · exact .pure hl.ok hx
    · exact h.evaluate right hl.ok (hl.stands hc) fun σ hσ => hs σ (List.mem_append_right _ hσ)
  | ternary condition thenBranch elseBranch =>
    refine (h.evaluate condition hm hc fun σ hσ =>
      hs σ (List.mem_append_left _ (List.mem_append_left _ hσ))).bind fun x m' hl _ => ?_
    split
    · exact h.evaluate thenBranch hl.ok (hl.stands hc) fun σ hσ =>
        hs σ (List.mem_append_left _ (List.mem_append_right _ hσ))
    · exact h.evaluate elseBranch hl.ok (hl.stands hc) fun σ hσ => hs σ (List.mem_append_right _ hσ)
  | «variable» id name => exact .readName hD hm hc (hs _ (List.mem_singleton.2 rfl)) nofun
  | this id keyword => exact .readName hD hm hc (hs _ (List.mem_singleton.2 rfl)) nofun
  | assign id name value =>
    refine (h.evaluate value hm hc fun σ hσ => hs σ (List.mem_append_left _ hσ)).bind fun x m' hl hx => ?_
    refine (Safe.assignName hD hl.ok (hl.stands hc)
      (hs _ (List.mem_append_right _ (List.mem_singleton.2 rfl))) hx).bind fun _ m'' hl' _ => ?_
    exact .pure hl'.ok (hx.grows hl'.grows)
  | call callee paren arguments =>
    refine (h.evaluate callee hm hc fun σ hσ => hs σ (List.mem_append_left _ hσ)).bind fun f m' hl hf => ?_
    refine (h.values arguments hl.ok (hl.stands hc) fun σ hσ => hs σ (List.mem_append_right _ hσ)).bind
      fun vs m'' hl' hvs => ?_
    exact h.call f vs paren hl'.ok (hf.grows hl'.grows) hvs
  | get object name =>
    refine (h.evaluate object hm hc hs).bind fun x m' hl hx => ?_
    cases x with
    | «instance» id cls => exact .silent (Eval.property_safe hl.ok hx)
    | _ => exact .silent (.refl hl.ok)
  | set object name value =>
    refine (h.evaluate object hm hc fun σ hσ => hs σ (List.mem_append_right _ hσ)).bind fun x m' hl hx => ?_
    cases x with
    | «instance» id cls =>
      refine (h.evaluate value hl.ok (hl.stands hc) fun σ hσ => hs σ (List.mem_append_left _ hσ)).bind
        fun v m'' hl' hv => ?_
      refine (Safe.silent (Eval.setField_safe hl'.ok hv)).bind fun _ m₃ hl₃ hst => ?_
      exact .pure hl₃.ok (hst ▸ hv)
    | _ => exact .silent (.refl hl.ok)

/-- Statements one after another, as far as they go. -/
theorem sequence (h : SafeRuns setting S fuel) (ss : List Stmt) (hm : m.Ok S) (hc : m.store.Stands m.scope c)
    (hi : c.initializing = none) (hs : ∀ σ ∈ Stmt.sitesAll c ss, S σ) (ht : Stmt.TidyAll c ss)
    (hf : Stmt.FormedAll ss) :
    Safe S (some m.scope) m (Operations.sequence (Logged.execute setting fuel) ss) fun flow st => flow.Ok S st := by
  induction ss generalizing m c with
  | nil => exact .pure hm trivial
  | cons s ss ih =>
    refine (h.execute s hm hc hi (fun σ hσ => hs σ (List.mem_append_left _ hσ)) ht.1 hf.1).bind
      fun flow m' hl hflow => ?_
    rw [← hl.scope] at hflow ⊢
    cases flow with
    | normal =>
      exact ih hl.ok hflow.2 ((c.after_initializing s).trans hi) (fun σ hσ => hs σ (List.mem_append_right _ hσ))
        ht.2 hf.2
    | _ => exact .pure hl.ok hflow.1

/-- A loop stays where it is, turn after turn. -/
theorem turns (h : SafeRuns setting S fuel) {condition : Expr} {body : Stmt} (n : Nat) (hm : m.Ok S)
    (hc : m.store.Stands m.scope c) (hi : c.initializing = none) (hcond : ∀ σ ∈ condition.sites c, S σ)
    (hbody : ∀ σ ∈ body.sites c, S σ) (ht : body.Tidy c) (hd : body.isDeclaration = false) (hf : body.Formed) :
    Safe S (some m.scope) m
      (Telling.turns (Value.isTruthy <$> Logged.evaluate setting fuel condition) (Logged.execute setting fuel body) n)
      fun flow st => flow.Ok S st ∧ st.Stands m.scope c := by
  induction n generalizing m with
  | zero => exact .exhausted
  | succ n ih =>
    have hx : Safe S none m (Value.isTruthy <$> Logged.evaluate setting fuel condition) fun _ st =>
        st.Stands m.scope c :=
      (h.evaluate condition hm hc hcond).bind fun x m' hl _ => .pure hl.ok (hc.grows hl.grows)
    refine hx.widen.bind fun goes m' hl hc' => ?_
    split
    · rw [← hl.scope] at hc' ⊢
      refine (h.execute body hl.ok hc' hi hbody ht hf).bind fun flow m'' hl' hflow => ?_
      rw [c.after_of_not_declaration hd, ← hl'.scope] at hflow
      cases flow with
      | normal =>
        rw [← hl'.scope]
        exact ih hl'.ok hflow.2
      | _ => exact .pure hl'.ok ⟨hflow.1, hl'.scope ▸ hflow.2⟩
    · exact .pure hl.ok ⟨trivial, hc'⟩

/-- A function keeps the place where it is declared, so that its body is safe whenever it is called. -/
theorem function_safe {f : Function} (hm : m.Ok S) (hc : m.store.Stands m.scope c)
    (hi : c.initializing = none) (hs : ∀ σ ∈ (Stmt.function f).sites c, S σ) (ht : (Stmt.function f).Tidy c)
    (hf : (Stmt.function f).Formed) :
    (Eval.execute setting (fuel + 1) (.function f) m).Safe S (some m.scope) m fun flow st =>
      flow.Ok S st ∧ st.Stands m.scope (c.declare f.name .function) := by
  refine Eval.safe_read (Eval.safe_bind (Eval.newObject_safe hm) fun id m' hl hst => ?_)
  have hc' : m'.store.Stands m'.scope c := by rw [hl.scope, hst]; exact hc
  have hd : (m'.store.define m'.scope f.name.lexeme (.function ⟨id, f, m'.scope, false⟩)).Stands m'.scope
      (c.declare f.name .function) := hc'.define hi _ _
  rw [← hl.scope]
  refine Eval.safe_bind (Eval.define_safe .function hl.ok hc' hi ?_) fun _ m'' hl' hc'' => ?_
  · exact ⟨_, _, (c.declare_initializing _ _).trans hi, hd.realizes, hs, ht.2, hf, nofun⟩
  · exact ⟨.refl hl'.ok, trivial, hc''⟩

/-- The class is filled in when its methods are there; its name is declared before. -/
theorem class_safe {name : Token} {declared : List Function} (hm : m.Ok S) (hc : m.store.Stands m.scope c)
    (hi : c.initializing = none) (hs : ∀ σ ∈ (Stmt.class name declared).sites c, S σ)
    (ht : (Stmt.class name declared).Tidy c) (hf : (Stmt.class name declared).Formed) :
    (Eval.execute setting (fuel + 1) (.class name declared) m).Safe S (some m.scope) m fun flow st =>
      flow.Ok S st ∧ st.Stands m.scope (c.declare name .class) := by
  refine Eval.safe_read (Eval.safe_bind (Eval.declare_safe hm hc ht.1) fun _ m₁ hl₁ h₁ => ?_)
  refine Eval.safe_bind (Eval.closures_safe declared hl₁.ok) fun methods m₂ hl₂ h₂ => ?_
  refine Eval.safe_bind (Eval.newObject_safe hl₂.ok) fun id m₃ hl₃ h₃ => ?_
  have hst : m₃.store = m.store.declare m.scope name.lexeme := h₃.trans (h₂.1.trans h₁)
  have hh : m₃.store.Has m.scope name.lexeme := by
    rw [hst]
    exact (Store.has_setCell hc.lt _ _ _ _).2 (.inl ⟨rfl, rfl⟩)
  have hg := Store.Grows.define_current hh.lt name.lexeme (.class ⟨id, name.lexeme, .ofList methods⟩)
  have hc' : (m₃.store.define m.scope name.lexeme (.class ⟨id, name.lexeme, .ofList methods⟩)).Stands m.scope
      (c.declare name .class) := by
    rw [hst]
    exact hc.declare_define hi ht.1 _
  have hok : (Value.class ⟨id, name.lexeme, .ofList methods⟩).Ok S
      (m₃.store.define m.scope name.lexeme (.class ⟨id, name.lexeme, .ofList methods⟩)) := by
    intro x f hx
    obtain ⟨hf', hs'⟩ := h₂.2 _ (NameMap.mem_of_find?_ofList hx)
    exact ⟨_, _, (c.declare_initializing _ _).trans hi, hs' ▸ hc'.realizes, .of_mem hf' hs ht.2 hf⟩
  refine Eval.safe_bind (Q := fun _ st => st.Stands m.scope (c.declare name .class)) ?_
    fun _ m₄ hl₄ h₄ => ⟨.refl hl₄.ok, trivial, h₄⟩
  change (Eval.assign (·.holder m.scope name.lexeme) name _ m₃).Safe _ _ _ _
  rw [Eval.assign_holder_of_has hh]
  exact ⟨⟨hl₃.ok.define hh.lt hg hok, rfl, hg⟩, hc'⟩

/-- One level more for statements. What a declaration adds to its scope is what its text adds to the place. -/
theorem execute_succ (h : SafeRuns setting S fuel) (s : Stmt) (hm : m.Ok S) (hc : m.store.Stands m.scope c)
    (hi : c.initializing = none) (hs : ∀ σ ∈ s.sites c, S σ) (ht : s.Tidy c) (hf : s.Formed) :
    Safe S (some m.scope) m (Logged.execute setting (fuel + 1) s) fun flow st =>
      flow.Ok S st ∧ st.Stands m.scope (c.after s) := by
  cases s with
  | expression value =>
    refine ((h.evaluate value hm hc hs).stay hc).bind fun x m' hl hx => ?_
    exact .pure hl.ok ⟨trivial, hx.2⟩
  | print value =>
    refine ((h.evaluate value hm hc hs).stay hc).bind fun x m' hl hx => ?_
    refine (Safe.silent (Eval.print_safe hl.ok)).bind fun _ m'' hl' hst => ?_
    exact .pure hl'.ok ⟨trivial, hst ▸ hx.2⟩
  | var name initializer =>
    cases initializer with
    | none =>
      rw [Logged.execute_simple setting fuel rfl]
      refine .silent (Eval.safe_read (Eval.safe_bind (Eval.declare_safe hm hc ht) fun _ m' hl hst => ?_))
      exact ⟨.refl hl.ok, trivial, hst ▸ hc.declare hi ht⟩
    | some value =>
      refine ((h.evaluate value hm (hc.inInitializer ht) hs).stay hc).bind fun x m' hl hx => ?_
      rw [← hl.scope] at hx ⊢
      have hd : Safe S (some m'.scope) m' (Telling.silent do Eval.define (← Eval.read Machine.scope) name.lexeme x)
          fun _ st => st.Stands m'.scope (c.declare name .initialized) :=
        .silent (Eval.safe_read (Eval.define_safe .initialized hl.ok hx.2 hi
          (hx.1.grows (.define_current hx.2.lt _ _))))
      exact hd.bind fun _ m'' hl' hc' => .pure hl'.ok ⟨trivial, hc'⟩
  | block body =>
    have hx : Safe S none m (Telling.silent do Eval.childScope (← Eval.read Machine.scope)) fun n st =>
        m.store.next ≤ n ∧ n = m.store.next ∧ st = (m.store.child m.scope).2 :=
      .silent (Eval.safe_read (Eval.childScope_safe hm))
    have hall : Safe S none m (Logged.execute setting (fuel + 1) (.block body)) fun flow st => flow.Ok S st := by
      refine hx.bind_inside fun n m' hl hn => .inScope ?_
      have hc' : m'.store.Stands n (c.inside []) := by
        rw [hn.1, hn.2]
        exact hc.child hi
      exact h.sequence (m := { m' with scope := n }) body ⟨hl.ok.cells, hl.ok.fields, hl.ok.globals⟩ hc' hi hs ht hf
    exact hall.stay hc
  | branch condition thenBranch elseBranch =>
    cases elseBranch with
    | none =>
      refine ((h.evaluate condition hm hc fun σ hσ => hs σ (List.mem_append_left _ hσ)).stay hc).bind
        fun x m' hl hx => ?_
      rw [← hl.scope] at hx ⊢
      split
      · have hy := h.execute thenBranch hl.ok hx.2 hi (fun σ hσ => hs σ (List.mem_append_right _ hσ)) ht hf.2
        rw [c.after_of_not_declaration hf.1] at hy
        exact hy
      · exact .pure hl.ok ⟨trivial, hx.2⟩
    | some elseBranch =>
      refine ((h.evaluate condition hm hc fun σ hσ =>
        hs σ (List.mem_append_left _ (List.mem_append_left _ hσ))).stay hc).bind fun x m' hl hx => ?_
      rw [← hl.scope] at hx ⊢
      split
      · have hy := h.execute thenBranch hl.ok hx.2 hi
          (fun σ hσ => hs σ (List.mem_append_left _ (List.mem_append_right _ hσ))) ht.1 hf.1.2
        rw [c.after_of_not_declaration hf.1.1] at hy
        exact hy
      · have hy := h.execute elseBranch hl.ok hx.2 hi (fun σ hσ => hs σ (List.mem_append_right _ hσ)) ht.2 hf.2.2
        rw [c.after_of_not_declaration hf.2.1] at hy
        exact hy
  | loop condition body =>
    exact .inLoop (h.turns (m := { m with loopDepth := m.loopDepth + 1 }) fuel ⟨hm.cells, hm.fields, hm.globals⟩ hc hi
      (fun σ hσ => hs σ (List.mem_append_left _ hσ)) (fun σ hσ => hs σ (List.mem_append_right _ hσ)) ht hf.1 hf.2)
  | «break» keyword =>
    rw [Logged.execute_simple setting fuel rfl]
    refine .silent (Eval.safe_read ?_)
    split
    · exact .refl hm
    · exact ⟨.refl hm, trivial, hc⟩
  | «return» keyword value =>
    cases value with
    | none => exact .silent ⟨.refl hm, trivial, hc⟩
    | some value =>
      refine ((h.evaluate value hm hc hs).stay hc).bind fun x m' hl hx => ?_
      exact .pure hl.ok hx
  | function f =>
    rw [Logged.execute_simple setting fuel rfl]
    exact .silent (function_safe hm hc hi hs ht hf)
  | «class» name declared =>
    rw [Logged.execute_simple setting fuel rfl]
    exact .silent (class_safe hm hc hi hs ht hf)

/-- A call opens a scope for the parameters inside the scope where the function was declared. -/
theorem run_succ (h : SafeRuns setting S fuel) (f : Closure) (arguments : List Value) (hm : m.Ok S)
    (hf : f.Ok S m.store) (ha : ∀ v ∈ arguments, v.Ok S m.store) (hl : arguments.length = f.arity) :
    Safe S none m (Logged.run setting (fuel + 1) f arguments) fun v st => v.Ok S st := by
  obtain ⟨place, c, hi, hr, hk⟩ := hf
  obtain ⟨id, ⟨name, ps, body⟩, s, initializes⟩ := f
  have hx : Safe S none m (Telling.silent (Eval.childScope s)) fun n st =>
      m.store.next ≤ n ∧ n = m.store.next ∧ st = (m.store.child s).2 :=
    .silent (Eval.childScope_safe hm)
  refine hx.bind_inside fun n m₁ hl₁ hn => ?_
  obtain ⟨rfl, hst⟩ := hn
  have hne : m.store.next ≠ Machine.globals := Nat.ne_of_gt (Nat.lt_of_le_of_lt (Nat.zero_le _) hr.lt)
  have hlt : m.store.next < m₁.store.next := by
    rw [hst]
    exact hr.child.lt
  change Safe _ _ _ ((Logged.operations setting).defineAll _ ps arguments >>= _) _
  rw [Logged.defineAll_silent]
  refine (Safe.silent (Eval.defineAll_safe hl₁.ok hl (fun v hv => (ha v hv).grows hl₁.grows) hlt hne)).bind
    fun _ m₂ hl₂ hd => ?_
  have hc : m₂.store.Stands m.store.next (c.inBody place ps) := by
    have hg := hl₂.grows
    rw [hst] at hg hd
    exact .inBody hr hi hg hd.1 hd.2
  have hbody := h.sequence (m := { m₂ with loopDepth := 0, scope := m.store.next }) body
    ⟨hl₂.ok.cells, hl₂.ok.fields, hl₂.ok.globals⟩ hc hi hk.sites hk.tidy.2 hk.formed
  refine (Safe.outsideLoops (Safe.inScope hbody)).bind fun flow m₃ hl₃ hflow => ?_
  exact .silent (Eval.result_safe hl₃.ok hflow)

theorem call_succ (h : SafeRuns setting S fuel) (callee : Value) (arguments : List Value) (paren : Token)
    (hm : m.Ok S) (hf : callee.Ok S m.store) (ha : ∀ v ∈ arguments, v.Ok S m.store) :
    Safe S none m (Logged.call setting (fuel + 1) callee arguments paren) fun v st => v.Ok S st := by
  cases callee with
  | function f =>
    refine (Safe.silent (Eval.checkCall_safe hm)).bind fun _ m' hl hst => .inCall ?_
    refine h.run (m := { m' with callDepth := m'.callDepth + 1 }) f arguments
      ⟨hl.ok.cells, hl.ok.fields, hl.ok.globals⟩ ?_ ?_ hst.1
    · exact Closure.Ok.mono hf (fun _ hσ _ => hσ) hl.grows
    · exact fun v hv => (ha v hv).grows hl.grows
  | «class» c =>
    refine (Safe.silent (Eval.checkCall_safe hm)).bind fun _ m' hl hst => .inCall ?_
    have hc : c.Ok S m'.store := Class.Ok.mono hf (fun _ hσ _ => hσ) hl.grows
    refine (Safe.silent (Eval.newObject_safe (m := { m' with callDepth := m'.callDepth + 1 })
      ⟨hl.ok.cells, hl.ok.fields, hl.ok.globals⟩)).bind fun id m₁ hl₁ h₁ => ?_
    have hc₁ : c.Ok S m₁.store := Class.Ok.mono hc (fun _ hσ _ => hσ) hl₁.grows
    split
    · next f hinit =>
      have harity : c.arity = f.arity := by
        unfold Class.arity
        rw [hinit]
        rfl
      have ho : Value.Ok S m₁.store (.instance id c) := hc₁
      refine (Safe.silent (Eval.bindThis_safe hl₁.ok (hc₁ _ f hinit) ho)).bind fun g m₂ hl₂ hg => ?_
      have hg₂ := (hl.grows.trans hl₁.grows).trans hl₂.grows
      refine (h.run g arguments hl₂.ok hg.1 (fun v hv => (ha v hv).grows hg₂) ?_).bind fun _ m₃ hl₃ _ => ?_
      · rw [hst.1, harity]
        unfold Closure.arity
        rw [hg.2]
      · exact .pure hl₃.ok (Class.Ok.mono hc₁ (fun _ hσ _ => hσ) (hl₂.grows.trans hl₃.grows))
    · exact .pure hl₁.ok hc₁
  | native f =>
    cases f
    refine (Safe.silent (Eval.checkCall_safe hm)).bind fun _ m' hl hst => .inCall ?_
    have hm' : { m' with callDepth := m'.callDepth + 1 }.Ok S := ⟨hl.ok.cells, hl.ok.fields, hl.ok.globals⟩
    exact (Safe.silent (Eval.readClock_safe setting.clock hm')).bind fun _ m'' hl' _ => .pure hl'.ok trivial
  | _ => exact .silent (.refl hm)

end SafeRuns

theorem safeRuns (hD : setting.Agrees S) (fuel : Nat) : SafeRuns setting S fuel := by
  induction fuel with
  | zero => exact .zero setting S
  | succ fuel h => exact ⟨h.evaluate_succ hD, h.execute_succ, h.call_succ, h.run_succ⟩

/-- A program at the top level. -/
theorem runAll_safe (hD : setting.Agrees S) (fuel : Nat) (ss : List Stmt) (hm : m.Ok S)
    (hc : m.store.Stands m.scope c) (hi : c.initializing = none) (hs : ∀ σ ∈ Stmt.sitesAll c ss, S σ)
    (ht : Stmt.TidyAll c ss) (hf : Stmt.FormedAll ss) :
    Safe S (some m.scope) m (Logged.runAll setting fuel ss) fun _ st => st.Stands m.scope (c.afterAll ss) := by
  induction ss generalizing m c with
  | nil => exact .pure hm hc
  | cons s ss ih =>
    refine ((safeRuns hD fuel).execute s hm hc hi (fun σ hσ => hs σ (List.mem_append_left _ hσ)) ht.1 hf.1).bind
      fun flow m' hl hflow => ?_
    rw [← hl.scope] at hflow ⊢
    exact ih hl.ok hflow.2 ((c.after_initializing s).trans hi) (fun σ hσ => hs σ (List.mem_append_right _ hσ))
      ht.2 hf.2

end LoxLang
