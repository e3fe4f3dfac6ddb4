import LoxLang.Proofs.Run.Growth.Steps

namespace LoxLang.Traced

variable {m : Machine} {s : ScopeId}

/-- With so much fuel, all runs keep to the scopes there are, whatever machine they start in. -/
structure GrowsAt (setting : Setting) (fuel : Nat) : Prop where
  evaluate : ∀ e m, m.Closed → Yields .none m (evaluate setting fuel e)
  execute : ∀ s m, m.Closed → Ends (.into m.scope s.declared) m (execute setting fuel s)
  call : ∀ callee arguments paren m, m.Closed → callee.Rooted m.store.next →
    (∀ v ∈ arguments, v.Rooted m.store.next) → Yields .none m (call setting fuel callee arguments paren)
  run : ∀ f arguments m, m.Closed → f.scope < m.store.next → (∀ v ∈ arguments, v.Rooted m.store.next) →
    Yields .none m (run setting fuel f arguments)

namespace GrowsAt

variable {setting : Setting} {fuel : Nat}

/-- One level more for expressions. They bind nothing in a scope that was there: calls and methods do it in scopes of
their own. -/
theorem evaluate_succ (h : GrowsAt setting fuel) (e : Expr) (m : Machine) (hm : m.Closed) :
    Yields .none m (Traced.evaluate setting (fuel + 1) e) := by
  cases e with
  | literal value => exact Grows.pure hm value.value_plain.rooted
  | group inner => exact h.evaluate inner m hm
  | unary operator operand =>
    refine (h.evaluate operand m hm).bind fun x m' hl _ => ?_
    refine Grows.silent (Eval.still_lift _ operator) hl.closed fun v hv => ?_
    exact (Value.unary_plain (Eval.lift_done hv)).rooted
  | binary left operator right =>
    refine (h.evaluate left m hm).bind fun x m' hl _ => (h.evaluate right m' hl.closed).bind fun y m'' hl' _ => ?_
    refine Grows.silent (Eval.still_lift _ operator) hl'.closed fun v hv => ?_
    exact (Value.binary_plain (Eval.lift_done hv)).rooted
  | logical left operator right =>
    refine (h.evaluate left m hm).bind fun x m' hl hx => ?_
    split
    · exact Grows.pure hl.closed hx
    · exact h.evaluate right m' hl.closed
  | ternary condition thenBranch elseBranch =>
    refine (h.evaluate condition m hm).bind fun x m' hl _ => ?_
    split
    · exact h.evaluate thenBranch m' hl.closed
    · exact h.evaluate elseBranch m' hl.closed
  | «variable» id name | this id name => exact Grows.readName setting id name hm
  | assign id name value =>
    refine (h.evaluate value m hm).bind fun x m' hl hx => ?_
    exact (Grows.assignName setting id name hl.closed hx).then_pure fun m'' hl' => hl'.rooted hx
  | call callee paren given =>
    refine (h.evaluate callee m hm).bind fun f m' hl hf => ?_
    refine (Grows.values h.evaluate hl.closed given).bind fun arguments m'' hl' hvs => ?_
    exact h.call f arguments paren m'' hl'.closed (hl'.rooted hf) hvs
  | get object name =>
    refine (h.evaluate object m hm).bind fun x m' hl hx => ?_
    cases x with
    | «instance» id cls => exact Grows.property hl.closed hx
    | _ => exact Grows.fail hl.closed
  | set object name value =>
    refine (h.evaluate object m hm).bind fun x m' hl hx => ?_
    cases x with
    | «instance» id cls =>
      refine (h.evaluate value m' hl.closed).bind fun v m'' hl' hv => ?_
      exact (Grows.make (.setField id name.lexeme v) hl'.closed hv trivial nofun).then_pure fun m₃ hl₃ => hl₃.rooted hv
    | _ => exact Grows.fail hl.closed

/-- A block, or the body of a function, in a scope that was not there before. -/
theorem body (h : GrowsAt setting fuel) (hf : m.Fresh s) (ss : List Stmt) :
    Ends (.within s) m (inScope s (Operations.sequence (Traced.execute setting fuel) ss)) := by
  refine Grows.inScope hf.closed hf.lt ((Grows.sequence h.execute ?_ ss).widen fun _ _ _ hA => hA.1)
  exact hf.closed.of_eq rfl rfl hf.lt

/-- One level more for statements. A block does it in a scope of its own, and a declaration in the current one. -/
theorem execute_succ (h : GrowsAt setting fuel) (s : Stmt) (m : Machine) (hm : m.Closed) :
    Ends (.into m.scope s.declared) m (Traced.execute setting (fuel + 1) s) := by
  cases s with
  | expression value => exact (h.evaluate value m hm).of_none.then_pure fun _ _ => trivial
  | print value =>
    refine (h.evaluate value m hm).of_none.bind fun x m' hl _ => ?_
    exact (Grows.make (.print x.display) hl.closed trivial trivial nofun).then_pure fun _ _ => trivial
  | var name initializer =>
    cases initializer with
    | none => exact Grows.reading ((Grows.declare_current name.lexeme hm).then_pure fun _ _ => trivial)
    | some value =>
      refine (h.evaluate value m hm).of_none.bind fun x m' hl hx => ?_
      rw [← hl.scope]
      exact Grows.reading ((Grows.define_current name.lexeme hl.closed hx).then_pure fun _ _ => trivial)
  | block body =>
    -- what the block declares comes to a scope that was not there
    refine Grows.reading (Grows.of_new ((Grows.childScope hm hm.scope).bind ?_))
    rintro _ m' - ⟨rfl, hf⟩
    exact h.body hf body
  | branch condition thenBranch elseBranch =>
    refine (h.evaluate condition m hm).of_none.bind fun x m' hl _ => ?_
    rw [← hl.scope]
    split
    · cases elseBranch with
      | none => exact h.execute thenBranch m' hl.closed
      | some elseBranch => exact (h.execute thenBranch m' hl.closed).into (List.subset_append_left ..)
    · cases elseBranch with
      | none => exact Grows.pure hl.closed trivial
      | some elseBranch => exact (h.execute elseBranch m' hl.closed).into (List.subset_append_right ..)
  | loop condition body =>
    have hinside : ({ m with loopDepth := m.loopDepth + 1 } : Machine).Closed := hm.of_eq rfl rfl hm.scope
    refine Grows.inLoop hm (Grows.turns (fun m' hm' => ?_) (h.execute body) hinside fuel)
    exact (h.evaluate condition m' hm').bind fun x m'' hl _ => Grows.pure hl.closed trivial
  | «break» keyword =>
    refine Grows.reading ?_
    split
    · exact Grows.fail hm
    · exact Grows.pure hm trivial
  | «return» keyword value =>
    cases value with
    | none => exact Grows.pure hm trivial
    | some value => exact (h.evaluate value m hm).of_none.bind fun x m' hl hx => Grows.pure hl.closed hx
  | function declaration =>
    refine Grows.reading ((Grows.newObject hm).bind fun id m' hl _ => ?_)
    rw [← hl.scope]
    have hclosure : (Value.function ⟨id, declaration, m'.scope, false⟩).Rooted m'.store.next := hl.closed.scope
    exact (Grows.define_current declaration.name.lexeme hl.closed hclosure).then_pure fun _ _ => trivial
  | «class» name declared =>
    refine Grows.reading ((Grows.declare_current name.lexeme hm).bind fun _ m₁ hl₁ hhas => ?_)
    refine (Grows.closures declared hl₁.closed).bind fun methods m₂ hl₂ hmethods => ?_
    refine (Grows.newObject hl₂.closed).bind fun id m₃ hl₃ _ => ?_
    -- the class finds its own name in the current scope
    have hhas₃ : m₃.store.Has m.scope name.lexeme := (hl₂.older.trans hl₃.older).has _ _ hhas
    have hscope : m₃.scope = m.scope := hl₃.scope.trans (hl₂.scope.trans hl₁.scope)
    have hclass : (Value.class ⟨id, name.lexeme, .ofList methods⟩).Rooted m₃.store.next := by
      intro x f hf
      rw [hmethods _ (NameMap.mem_of_find?_ofList hf)]
      exact hhas₃.lt
    have hheld : ∀ a, m₃.store.holder m.scope name.lexeme = .ok a →
        a ∈ m₃.store.chain m₃.scope ∧ m₃.store.Has a name.lexeme := by
      intro a ha
      rw [Store.holder_of_has hhas₃] at ha
      cases ha
      exact ⟨hscope ▸ List.mem_cons_self, hhas₃⟩
    exact (Grows.assign (f := (·.holder m.scope name.lexeme)) hl₃.closed hclass hheld).then_pure fun _ _ => trivial

theorem call_succ (h : GrowsAt setting fuel) (callee : Value) (arguments : List Value) (paren : Token) (m : Machine)
    (hm : m.Closed) (hc : callee.Rooted m.store.next) (hvs : ∀ v ∈ arguments, v.Rooted m.store.next) :
    Yields .none m (Traced.call setting (fuel + 1) callee arguments paren) := by
  have hopened : ({ m with callDepth := m.callDepth + 1 } : Machine).Closed := hm.of_eq rfl rfl hm.scope
  cases callee with
  | native f =>
    cases f
    refine Grows.checked hm _ arguments paren ((Grows.readClock setting.clock hopened).bind ?_)
    exact fun time _ hl _ => Grows.pure hl.closed trivial
  | function f => exact Grows.checked hm _ arguments paren (h.run f arguments _ hopened hc hvs)
  | «class» c =>
    refine Grows.checked hm _ arguments paren ((Grows.newObject hopened).bind fun id m' hl _ => ?_)
    have hinstance : (Value.instance id c).Rooted m'.store.next := Class.Rooted.mono hc hl.older.next_le
    cases hi : c.initializer? with
    | none => exact Grows.pure hl.closed hinstance
    | some method =>
      refine (Grows.bindThis hl.closed (hinstance _ _ hi) hinstance).bind fun f m'' hl' hf => ?_
      have hvs' : ∀ v ∈ arguments, v.Rooted m''.store.next := fun v hv => hl'.rooted (hl.rooted (hvs v hv))
      exact (h.run f arguments m'' hl'.closed hf hvs').then_pure fun m₃ hl₃ => hl₃.rooted (hl'.rooted hinstance)
  | _ => exact Grows.fail hm

/-- The parameters and the body come to a scope that was not there, so for the caller nothing is bound. -/
theorem run_succ (h : GrowsAt setting fuel) (f : Closure) (arguments : List Value) (m : Machine) (hm : m.Closed)
    (hs : f.scope < m.store.next) (hvs : ∀ v ∈ arguments, v.Rooted m.store.next) :
    Yields .none m (Traced.run setting (fuel + 1) f arguments) := by
  -- parameters come while the new scope is fresh, all other names when it is the current one
  refine Grows.of_new ((Grows.childScope hm hs).bind ?_)
  rintro _ m' - ⟨rfl, hf⟩
  refine (Grows.defineAll hf hvs).bind fun _ m'' _ hf' => ?_
  have hopened : ({ m'' with loopDepth := 0 } : Machine).Fresh m.store.next := hf'.of_eq rfl rfl hf'.rooted.scope
  exact (Grows.outsideLoops hf'.closed (h.body hopened f.declaration.body)).bind fun flow m₃ hl hflow =>
    Grows.result hl.closed hflow

end GrowsAt

/-- An expression binds no name in a scope that was there, and a statement binds there only what it declares, in the
current scope: by induction on the fuel. -/
theorem growsAt (setting : Setting) (fuel : Nat) : GrowsAt setting fuel := by
  induction fuel with
  | zero => exact ⟨fun _ _ _ => .exhausted, fun _ _ _ => .exhausted, fun _ _ _ _ _ _ _ => .exhausted,
      fun _ _ _ _ _ _ => .exhausted⟩
  | succ fuel h => exact ⟨h.evaluate_succ, h.execute_succ, h.call_succ, h.run_succ⟩

/-- The statements of a program bind only the names that they declare. -/
theorem runAll_grows (setting : Setting) (fuel : Nat) (ss : List Stmt) (hm : m.Closed) :
    Grows (.into m.scope (ss.flatMap Stmt.declared)) m (runAll setting fuel ss) fun _ _ => True := by
  induction ss generalizing m with
  | nil => exact .pure hm trivial
  | cons s ss ih =>
    refine (((growsAt setting fuel).execute s m hm).into (List.subset_append_left ..)).bind fun flow m' hl _ => ?_
    have hrest := ih hl.closed
    rw [hl.scope] at hrest
    exact hrest.into (List.subset_append_right ..)

end LoxLang.Traced
