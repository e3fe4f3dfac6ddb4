import LoxLang.Proofs.Run.Loops.Steps

namespace LoxLang.Eval

variable {α : Type} {T : TwoRuns} {lag : Lag} {W W' : World} {j k : Layers} {more fuel fuel' : Nat}

theorem andThen_normal (x : Eval Flow) : andThen x (pure .normal) = x := by
  refine Eq.trans ?_ (bind_pure x)
  unfold andThen
  congr 1
  funext flow
  cases flow <;> rfl

/-- The block around the loop is its first clause and the rest. -/
theorem sequence_pair (step : Stmt → Eval Flow) (s s' : Stmt) :
    Operations.sequence step [s, s'] = andThen (step s) (step s') := by
  change andThen (step s) (andThen (step s') (pure .normal)) = _
  rw [andThen_normal]

/-- A body and the increment after it make a turn. -/
theorem forTurns_succ (condition : Eval Bool) (body : Eval Flow) (increment : Eval Unit) (fuel : Nat) :
    forTurns condition body increment (fuel + 1) = (do
      if ← condition then
        match ← andThen body (do increment; pure .normal) with
        | .normal => forTurns condition body increment fuel
        | .break => pure .normal
        | .return value => pure (.return value)
      else pure .normal) := by
  rw [forTurns]
  congr 1
  funext holds
  cases holds with
  | false => rfl
  | true =>
    rw [if_pos rfl, if_pos rfl, andThen, bind_assoc]
    congr 1
    funext flow
    cases flow with
    | normal =>
      dsimp only
      rw [bind_assoc]
      rfl
    | «break» | «return» => rfl

/-- A loop without an increment. -/
theorem turns_eq_forTurns (condition : Eval Bool) (body : Eval Flow) (fuel : Nat) :
    turns condition body fuel = forTurns condition body (pure ()) fuel := by
  induction fuel with
  | zero => rfl
  | succ fuel ih =>
    rw [turns_succ, ih]
    rfl

namespace InStep

theorem andThen {x x' y y' : Eval Flow} (hx : InStep T lag W k (MirrorFlow T) x x')
    (hy : ∀ W', W ⊆ W' → InStep T lag W' k (MirrorFlow T) y y') :
    InStep T lag W k (MirrorFlow T) (Eval.andThen x y) (Eval.andThen x' y') := by
  refine .bind hx fun W hW flow flow' hflow => ?_
  cases hflow with
  | normal => exact hy W hW
  | «break» => exact .pure .break
  | «return» h => exact .pure (.return h)

theorem sequence {step step' : Stmt → Eval Flow} {ss : List Stmt}
    (hstep : ∀ W, ∀ s ∈ ss, InStep T lag W k (MirrorFlow T) (step s) (step' s)) (W : World) :
    InStep T lag W k (MirrorFlow T) (Operations.sequence step ss) (Operations.sequence step' ss) := by
  induction ss generalizing W with
  | nil => exact .pure .normal
  | cons s ss ih =>
    exact .andThen (hstep W s List.mem_cons_self) fun W _ => ih (fun W s hs => hstep W s (List.mem_cons_of_mem _ hs)) W

theorem values {step step' : Expr → Eval Value} {es : List Expr}
    (hstep : ∀ W, ∀ e ∈ es, InStep T lag W k (MirrorValue T) (step e) (step' e)) (W : World) :
    InStep T lag W k (MirrorValues T) (Operations.values step es) (Operations.values step' es) := by
  induction es generalizing W with
  | nil => exact .pure .nil
  | cons e es ih =>
    refine .bind (hstep W e List.mem_cons_self) fun W _ v v' hv => ?_
    refine .bind (ih (fun W e he => hstep W e (List.mem_cons_of_mem _ he)) W) fun W hW vs vs' hvs => .pure ?_
    exact .cons (hv.grows hW) hvs

/-- The turns of a `for` and of the loop that stands for it, by induction on the fuel for turns. -/
theorem forTurns {condition condition' : Eval Bool} {body body' : Eval Flow} {increment : Eval Unit}
    (hc : ∀ W, InStep T lag W k Equal condition condition')
    (hb : ∀ W, InStep T lag W k (MirrorFlow T) (Eval.andThen body (do increment; Pure.pure .normal)) body')
    (h : lag.Spares 0 fuel fuel') (W : World) :
    InStep T lag W k (MirrorFlow T) (Eval.forTurns condition body increment fuel)
      (Eval.turns condition' body' fuel') := by
  induction fuel generalizing fuel' W with
  | zero =>
    rcases h.zero_or_lag with rfl | hlag
    · exact .exhausted
    · exact .lagDirect hlag _
  | succ fuel ih =>
    cases fuel' with
    | zero => exact .lagDesugared (h.lag_of_zero (by omega)) _
    | succ fuel' =>
      rw [forTurns_succ, turns_succ]
      refine .bindEqual (hc W) fun W _ holds => ?_
      cases holds with
      | false => exact .pure .normal
      | true =>
        refine .bind (hb W) fun W _ flow flow' hflow => ?_
        cases hflow with
        | normal => exact ih (h.step.mono (by omega)) W
        | «break» => exact .pure .normal
        | «return» hv => exact .pure (.return hv)

theorem turns {condition condition' : Eval Bool} {body body' : Eval Flow}
    (hc : ∀ W, InStep T lag W k Equal condition condition')
    (hb : ∀ W, InStep T lag W k (MirrorFlow T) body body') (h : lag.Spares 0 fuel fuel') (W : World) :
    InStep T lag W k (MirrorFlow T) (Eval.turns condition body fuel) (Eval.turns condition' body' fuel') := by
  rw [turns_eq_forTurns]
  refine .forTurns hc (fun W => ?_) h W
  change InStep T lag W k (MirrorFlow T) (Eval.andThen body (Pure.pure .normal)) body'
  rw [andThen_normal]
  exact hb W

end InStep

/-- With so much fuel, the two runs go in step. -/
structure InStepAt (T : TwoRuns) (lag : Lag) (fuel fuel' : Nat) : Prop where
  evaluate : ∀ W k (e : Expr), e.Aligned T k →
    InStep T lag W k (MirrorValue T) (T.reading.evaluate T.direct fuel e) (evaluate T.desugared fuel' e)
  execute : ∀ W k (s : Stmt), s.Aligned T k →
    InStep T lag W k (MirrorFlow T) (T.reading.execute T.direct fuel s) (execute T.desugared fuel' s)
  call : ∀ W k (callee callee' : Value) arguments arguments' (paren : Token), callee.Mirrors T W callee' →
    MirrorValues T W arguments arguments' →
    InStep T lag W k (MirrorValue T) (T.reading.call T.direct fuel callee arguments paren)
      (call T.desugared fuel' callee' arguments' paren)
  run : ∀ W k (f f' : Closure) arguments arguments', f.Mirrors T W [] f' → MirrorValues T W arguments arguments' →
    InStep T lag W k (MirrorValue T) (T.reading.run T.direct fuel f arguments) (run T.desugared fuel' f' arguments')

namespace InStepAt

/-- One level more for expressions. They are run alike in both, and differ only inside the functions that they call. -/
theorem evaluate_succ (h : InStepAt T lag fuel fuel') (W : World) (k : Layers) (e : Expr) (he : e.Aligned T k) :
    InStep T lag W k (MirrorValue T) (T.reading.evaluate T.direct (fuel + 1) e)
      (Eval.evaluate T.desugared (fuel' + 1) e) := by
  unfold Expr.Aligned at he
  cases e with
  | literal value => exact .pure (.plain value.value_plain)
  | group inner => exact h.evaluate W k inner he
  | unary operator operand =>
    refine .bind (h.evaluate W k operand he) fun W _ v v' hv => ?_
    rw [hv.same.unary_eq]
    exact .lift (fun _ => Value.unary_plain) operator
  | binary left operator right =>
    obtain ⟨hl, hr⟩ := List.forall_mem_append.1 he
    refine .bind (h.evaluate W k left hl) fun W _ v v' hv => .bind (h.evaluate W k right hr) fun W hW w w' hw => ?_
    rw [hv.same.binary_eq operator.kind hw.same]
    exact .lift (fun _ => Value.binary_plain) operator
  | logical left operator right =>
    obtain ⟨hl, hr⟩ := List.forall_mem_append.1 he
    refine .bind (h.evaluate W k left hl) fun W _ v v' hv => ?_
    rw [hv.same.isTruthy_eq]
    split
    · exact .pure hv
    · exact h.evaluate W k right hr
  | ternary condition thenBranch elseBranch =>
    obtain ⟨hc, he⟩ := List.forall_mem_append.1 he
    obtain ⟨hc, ht⟩ := List.forall_mem_append.1 hc
    refine .bind (h.evaluate W k condition hc) fun W _ v v' hv => ?_
    rw [hv.same.isTruthy_eq]
    split
    · exact h.evaluate W k thenBranch ht
    · exact h.evaluate W k elseBranch he
  | «variable» i name => exact .readName (he _ (List.mem_singleton_self _)) name
  | this i keyword => exact .readName (he _ (List.mem_singleton_self _)) keyword
  | assign i name value =>
    obtain ⟨hi, he⟩ := List.forall_mem_cons.1 he
    refine .bind (h.evaluate W k value he) fun W _ v v' hv => .bindEqual (.assignName hi name hv) fun W hW _ => ?_
    exact .pure (hv.grows hW)
  | call callee paren given =>
    obtain ⟨hc, hg⟩ := List.forall_mem_append.1 he
    have hgiven : ∀ W, ∀ e ∈ given, InStep T lag W k (MirrorValue T) (T.reading.evaluate T.direct fuel e)
        (Eval.evaluate T.desugared fuel' e) :=
      fun W e he => h.evaluate W k e fun o ho => hg o (Expr.occurrences_subset he ho)
    refine .bind (h.evaluate W k callee hc) fun W _ f f' hf => ?_
    refine .bind (.values hgiven W) fun W hW arguments arguments' harguments => ?_
    exact h.call W k f f' arguments arguments' paren (hf.grows hW) harguments
  | get object name =>
    refine .bind (h.evaluate W k object he) fun W _ v v' hv => ?_
    cases hv with
    | «instance» i hc => exact .property i hc name
    | plain hv =>
      cases v with
      | «instance» => cases hv
      | _ => exact .fail _ name
    | _ => exact .fail _ name
  | set object name value =>
    obtain ⟨ho, hv⟩ := List.forall_mem_append.1 he
    refine .bind (h.evaluate W k object ho) fun W _ v v' hobject => ?_
    cases hobject with
    | «instance» i hc =>
      refine .bind (h.evaluate W k value hv) fun W _ w w' hw => .bindEqual (.setField i name.lexeme hw) fun W hW _ => ?_
      exact .pure (hw.grows hW)
    | plain hplain =>
      cases v with
      | «instance» => cases hplain
      | _ => exact .fail _ name
    | _ => exact .fail _ name

/-- The turn of a `for`: its body and its increment, in the block that is there for an increment. -/
theorem turn {f : ForLoop} (ih : ∀ fuel', lag.Spares 0 fuel fuel' → InStepAt T lag fuel fuel')
    (hs : lag.Spares 2 fuel fuel') (hn : ∀ e ∈ f.increment, e.Aligned T (f.bodyLayers k))
    (hb : f.body.Aligned T (f.bodyLayers k)) (W : World) :
    InStep T lag W k (MirrorFlow T)
      (andThen (T.reading.execute T.direct fuel f.body) (do
        advance (T.reading.evaluate T.direct fuel) f.increment
        pure .normal))
      (Eval.execute T.desugared fuel' (Grammar.withIncrement f.increment f.body)) := by
  unfold ForLoop.bodyLayers at hn hb
  cases hf : f.increment with
  | none =>
    rw [hf] at hb
    change InStep T lag W k (MirrorFlow T) (andThen _ (pure .normal)) _
    rw [andThen_normal]
    exact (ih fuel' (hs.mono (by omega))).execute W k f.body hb
  | some increment =>
    rw [hf] at hn hb
    cases fuel' with
    | zero => exact .lagDesugared (hs.lag_of_zero (by omega)) _
    | succ fuel' =>
      have hs := hs.take
      change InStep T lag W k (MirrorFlow T) _
        (inNewScope (Operations.sequence (Eval.execute T.desugared fuel') [f.body, .expression increment]))
      rw [sequence_pair]
      refine .inNewScopeDesugared fun W hW => .andThen ?_ fun W _ => ?_
      · exact (ih fuel' (hs.mono (by omega))).execute W _ f.body hb
      · cases fuel' with
        | zero => exact .lagDesugared (hs.lag_of_zero (by omega)) _
        | succ fuel' =>
          have hvalue := (ih fuel' hs.take).evaluate W _ increment (hn increment rfl)
          rw [advance, bind_assoc]
          exact .bind hvalue fun W _ _ _ _ => .pure .normal

/-- All turns of a `for`. -/
theorem loop {f : ForLoop} (ih : ∀ fuel', lag.Spares 0 fuel fuel' → InStepAt T lag fuel fuel')
    (hs : lag.Spares 2 fuel fuel') (hc : ∀ e ∈ f.condition, e.Aligned T k)
    (hn : ∀ e ∈ f.increment, e.Aligned T (f.bodyLayers k)) (hb : f.body.Aligned T (f.bodyLayers k)) (W : World) :
    InStep T lag W k (MirrorFlow T)
      (inLoop (forTurns (holds (T.reading.evaluate T.direct fuel) f.condition) (T.reading.execute T.direct fuel f.body)
        (advance (T.reading.evaluate T.direct fuel) f.increment) fuel))
      (Eval.execute T.desugared (fuel' + 1)
        (.loop (f.condition.getD (.literal (.bool true))) (Grammar.withIncrement f.increment f.body))) := by
  have hle := hs.mono (Nat.zero_le 2)
  refine .inLoop (.forTurns (fun W => ?_) (turn ih hs hn hb) hle W)
  cases hf : f.condition with
  | none =>
    cases fuel' with
    | zero => exact .lagDesugared (hs.lag_of_zero (by omega)) _
    | succ fuel' => exact .pure rfl
  | some condition =>
    exact .map ((ih fuel' hle).evaluate W k condition (hc condition hf)) fun W _ v v' hv => hv.same.isTruthy_eq

/-- A `for` takes one unit of fuel in the direct run and up to four in the other, for its two blocks and its loop. -/
theorem execute_for {s : Stmt} {f : ForLoop} (ih : ∀ fuel', lag.Spares 0 fuel fuel' → InStepAt T lag fuel fuel')
    (hspares : lag.Spares 3 fuel fuel') (hr : T.reading.loop? s = some f) (hs : s.Aligned T k) (W : World) :
    InStep T lag W k (MirrorFlow T) (T.reading.execute T.direct (fuel + 1) s)
      (Eval.execute T.desugared (fuel' + 1) s) := by
  obtain ⟨hi, hc, hn, hb⟩ := hs.of_loop hr
  rw [Reading.execute_of_loop hr, Reading.runFor, ← T.reading.desugared hr]
  unfold ForLoop.turnLayers at hi hc hn hb
  rw [ForLoop.desugared, Parse.forLoop_eq]
  cases hf : f.initializer with
  | none =>
    rw [hf] at hc hn hb
    exact .inNewScopeDirect fun W _ => loop ih (hspares.mono (by omega)) hc hn hb W
  | some first =>
    rw [hf] at hi hc hn hb
    change InStep T lag W k (MirrorFlow T) _
      (inNewScope (Operations.sequence (Eval.execute T.desugared fuel') [first, _]))
    rw [sequence_pair]
    refine .inNewScope fun W _ => .andThen ?_ fun W _ => ?_
    · exact (ih fuel' (hspares.mono (Nat.zero_le 3))).execute W _ first (hi first rfl)
    · cases fuel' with
      | zero => exact .lagDesugared (hspares.lag_of_zero (by omega)) _
      | succ fuel' => exact loop ih hspares.take hc hn hb W

theorem declareClass_inStep {name : Token} {methods : List Function} (hk : k.Open)
    (h : ∀ f ∈ methods, f.Aligned T (.both :: k)) (W : World) :
    InStep T lag W k (MirrorFlow T) (declareClass name methods) (declareClass name methods) := by
  refine .bind .scope fun W _ s s' hs => .bindEqual (.declare ⟨k, hk, hs⟩ name.lexeme) fun W hW₁ _ => ?_
  refine .bind (.closures hk (hW₁ hs) methods h) fun W hW₂ _ _ hclosures => .bindEqual .newObject fun W hW₃ i => ?_
  have hshares : W.Shares s s' := ⟨k, hk, hW₃ (hW₂ (hW₁ hs))⟩
  refine .bindEqual (.define hshares name.lexeme (.class ⟨rfl, rfl, ?_⟩)) fun W _ _ => .pure .normal
  exact (NameMap.Alike.ofList hclosures).imp fun _ _ hf => hf.grows hW₃

/-- One level more for statements, which are read as a `for` or go by their form in both runs. -/
theorem execute_succ (ih : ∀ fuel', lag.Spares 0 fuel fuel' → InStepAt T lag fuel fuel')
    (hspares : lag.Spares 3 fuel fuel') (W : World) (k : Layers) (s : Stmt) (hs : s.Aligned T k) :
    InStep T lag W k (MirrorFlow T) (T.reading.execute T.direct (fuel + 1) s)
      (Eval.execute T.desugared (fuel' + 1) s) := by
  have hle := hspares.mono (Nat.zero_le 3)
  have h := ih fuel' hle
  cases hr : T.reading.loop? s with
  | some f => exact execute_for ih hspares hr hs W
  | none =>
    cases hs with
    | expression hvalue =>
      rw [Reading.execute, hr]
      exact .bind (h.evaluate W k _ hvalue) fun W _ v v' hv => .pure .normal
    | print hvalue =>
      rw [Reading.execute, hr]
      refine .bind (h.evaluate W k _ hvalue) fun W _ v v' hv => ?_
      rw [hv.same.display_eq]
      exact .bindEqual (.print v.display) fun W _ _ => .pure .normal
    | @var _ name initializer hk hvalue =>
      cases initializer with
      | none =>
        rw [Reading.execute, hr]
        refine .bind .scope fun W _ s s' hs => ?_
        exact .bindEqual (.declare ⟨k, hk, hs⟩ name.lexeme) fun W _ _ => .pure .normal
      | some value =>
        rw [Reading.execute, hr]
        refine .bind (h.evaluate W k value (hvalue value rfl)) fun W _ v v' hv => .bind .scope fun W hW s s' hs => ?_
        exact .bindEqual (.define ⟨k, hk, hs⟩ name.lexeme (hv.grows hW)) fun W _ _ => .pure .normal
    | block _ hbody =>
      rw [Reading.execute, hr]
      exact .inNewScope fun W _ => .sequence (fun W s hs => h.execute W _ s (hbody s hs)) W
    | @branch _ condition thenBranch elseBranch hc ht he =>
      cases elseBranch with
      | none =>
        rw [Reading.execute, hr]
        refine .bind (h.evaluate W k condition hc) fun W _ v v' hv => ?_
        rw [hv.same.isTruthy_eq]
        split
        · exact h.execute W k thenBranch ht
        · exact .pure .normal
      | some elseBranch =>
        rw [Reading.execute, hr]
        refine .bind (h.evaluate W k condition hc) fun W _ v v' hv => ?_
        rw [hv.same.isTruthy_eq]
        split
        · exact h.execute W k thenBranch ht
        · exact h.execute W k elseBranch (he elseBranch rfl)
    | @loop _ condition body _ hc hb =>
      rw [Reading.execute, hr]
      refine .inLoop (.turns (fun W => ?_) (fun W => h.execute W k body hb) hle W)
      exact .map (h.evaluate W k condition hc) fun W _ v v' hv => hv.same.isTruthy_eq
    | «break» _ keyword =>
      rw [Reading.execute, hr]
      have hdepth : InStep T lag W k Equal (Eval.read Machine.loopDepth) (Eval.read Machine.loopDepth) :=
        .read fun _ _ hm _ => hm.loopDepth
      refine .bindEqual hdepth fun W _ depth => ?_
      split
      · exact .fail _ keyword
      · exact .pure .break
    | @«return» _ keyword value hvalue =>
      cases value with
      | none =>
        rw [Reading.execute, hr]
        exact .pure (.return (.plain trivial))
      | some value =>
        rw [Reading.execute, hr]
        exact .bind (h.evaluate W k value (hvalue value rfl)) fun W _ v v' hv => .pure (.return hv)
    | @function _ f hk hbody =>
      rw [Reading.execute, hr]
      refine .bind .scope fun W _ s s' hs => .bindEqual .newObject fun W hW i => ?_
      have hclosure : Closure.Mirrors T W [] ⟨i, f, s, false⟩ ⟨i, f, s', false⟩ := ⟨rfl, k, hk, hW hs, hbody⟩
      exact .bindEqual (.define ⟨k, hk, hW hs⟩ f.name.lexeme (.function hclosure)) fun W _ _ => .pure .normal
    | @«class» _ name methods hk hmethods =>
      rw [Reading.execute, hr]
      -- the class is assigned by name, and the search for it has to end in the scope of the machine
      intro m m' hm hs
      obtain ⟨hlt, hlt'⟩ := hm.store.lt _ hs
      change Outcome.InStep T lag W m.scope m'.scope (MirrorFlow T)
        (Eval.execute T.direct (fuel + 1) (.class name methods) m)
        (Eval.execute T.desugared (fuel' + 1) (.class name methods) m')
      rw [execute_class hlt, execute_class hlt']
      exact declareClass_inStep hk hmethods W m m' hm hs
    | «for» hr' =>
      rw [hr] at hr'
      cases hr'

theorem call_succ (h : InStepAt T lag fuel fuel') (W : World) (k : Layers) (callee callee' : Value)
    (arguments arguments' : List Value) (paren : Token) (hcallee : callee.Mirrors T W callee')
    (harguments : MirrorValues T W arguments arguments') :
    InStep T lag W k (MirrorValue T) (T.reading.call T.direct (fuel + 1) callee arguments paren)
      (Eval.call T.desugared (fuel' + 1) callee' arguments' paren) := by
  cases hcallee with
  | plain hv =>
    cases callee with
    | native f =>
      cases f with
      | clock =>
        have hread : ∀ W, InStep T lag W k Equal (readClock T.direct.clock) (readClock T.desugared.clock) := by
          intro W
          rw [T.clock]
          exact .readClock T.direct.clock
        refine .bindEqual (.checkCall rfl harguments paren) fun W _ _ => .inCall ?_
        exact .bindEqual (hread W) fun W _ time => .pure (.plain trivial)
    | function | «class» | «instance» => cases hv
    | _ => exact .fail _ paren
  | function hf =>
    refine .bindEqual (.checkCall hf.arity_eq harguments paren) fun W hW _ => .inCall ?_
    exact h.run W k _ _ arguments arguments' (hf.grows hW) (harguments.grows hW)
  | @«class» c c' hc =>
    refine .bindEqual (.checkCall hc.arity_eq harguments paren) fun W hW₁ _ => .inCall ?_
    refine .bindEqual .newObject fun W hW₂ i => ?_
    have hc := hc.grows (hW₁.trans hW₂)
    have hinitializer := hc.initializer?
    generalize c.initializer? = method at hinitializer ⊢
    generalize c'.initializer? = method' at hinitializer ⊢
    cases hinitializer with
    | none => exact .pure (.instance i hc)
    | some hf =>
      refine .bind (.bindThis hf (.instance i hc)) fun W hW₃ f f' hf => ?_
      have hgiven := harguments.grows (hW₁.trans (hW₂.trans hW₃))
      refine .bind (h.run W k f f' arguments arguments' hf hgiven) fun W hW₄ _ _ _ => .pure ?_
      exact .instance i (hc.grows (hW₃.trans hW₄))
  | «instance» i hc => exact .fail _ paren

/-- The scope of a call is made in both runs, whatever scopes one of them lacks around the function. -/
theorem run_succ (h : InStepAt T lag fuel fuel') (W : World) (k : Layers) (f f' : Closure)
    (arguments arguments' : List Value) (hf : f.Mirrors T W [] f')
    (harguments : MirrorValues T W arguments arguments') :
    InStep T lag W k (MirrorValue T) (T.reading.run T.direct (fuel + 1) f arguments)
      (Eval.run T.desugared (fuel' + 1) f' arguments') := by
  obtain ⟨hsame, j, hj, hmem, hcode⟩ := hf
  have hdeclaration : f'.declaration = f.declaration := by rw [hsame]
  refine .bind (.childScope hmem) fun W hW₁ t t' ht => ?_
  rw [hdeclaration]
  refine .bindEqual (.defineAll ⟨_, Layers.open_both j, ht⟩ f.declaration.parameters (harguments.grows hW₁)) ?_
  intro W hW₂ _
  have hbody : InStep T lag W (.both :: j) (MirrorFlow T)
      (Operations.sequence (T.reading.execute T.direct fuel) f.declaration.body)
      (Operations.sequence (Eval.execute T.desugared fuel') f.declaration.body) :=
    .sequence (fun W s hs => h.execute W _ s (hcode s hs)) W
  refine .bind (.outsideLoops (.inScope (hW₂ ht) hbody)) fun W hW₃ flow flow' hflow => ?_
  exact .result ⟨hsame, j, hj, hW₃ (hW₂ (hW₁ hmem)), hcode⟩ hflow

end InStepAt

/-- The runs go in step, by induction on the fuel of the direct one. -/
theorem inStepAt (T : TwoRuns) (h : lag.Spares 0 fuel fuel') : InStepAt T lag fuel fuel' := by
  induction fuel generalizing fuel' with
  | zero =>
    rcases h.zero_or_lag with rfl | hlag
    · exact ⟨fun _ _ _ _ => .exhausted, fun _ _ _ _ => .exhausted, fun _ _ _ _ _ _ _ _ _ => .exhausted,
        fun _ _ _ _ _ _ _ _ => .exhausted⟩
    · exact ⟨fun _ _ _ _ => .lagDirect hlag _, fun _ _ _ _ => .lagDirect hlag _,
        fun _ _ _ _ _ _ _ _ _ => .lagDirect hlag _, fun _ _ _ _ _ _ _ _ => .lagDirect hlag _⟩
  | succ fuel ih =>
    cases fuel' with
    | zero =>
      have hlag := h.lag_of_zero (by omega)
      exact ⟨fun _ _ _ _ => .lagDesugared hlag _, fun _ _ _ _ => .lagDesugared hlag _,
        fun _ _ _ _ _ _ _ _ _ => .lagDesugared hlag _, fun _ _ _ _ _ _ _ _ => .lagDesugared hlag _⟩
    | succ fuel' =>
      have hat := ih (h.step.mono (Nat.zero_le 3))
      exact ⟨hat.evaluate_succ, InStepAt.execute_succ (fun _ => ih) h.step, hat.call_succ, hat.run_succ⟩

end LoxLang.Eval
