import LoxLang.Proofs.Run.Ending.Settles
import LoxLang.Proofs.Run.Steps

namespace LoxLang

variable {setting : Setting} {R : Region} {m : Machine} {d : Nat} {s : ScopeId} {name : Token}

namespace Machine.Within

theorem get {v : Value} (h : m.Within R d) (hs : R.scope s) {x : String} (hv : m.store.get s x = .ok v) :
    v.Within R := by
  unfold Store.get Store.holder at hv
  cases ha : m.store.nearest? x (m.store.chain s) with
  | none => rw [ha] at hv; cases hv
  | some a =>
    rw [ha] at hv
    exact h.cells a x v (h.outer s a hs (Store.mem_of_nearest? ha)) (Store.readCell_ok hv)

theorem getAt {v : Value} (h : m.Within R d) (hs : R.scope s) {distance : Nat} {x : String}
    (hv : m.store.getAt s distance x = .ok v) : v.Within R := by
  unfold Store.getAt at hv
  cases ha : m.store.holderAt s distance x with
  | error e => rw [ha] at hv; cases hv
  | ok a =>
    rw [ha] at hv
    have hmem : a ∈ m.store.chain s := List.mem_of_getElem? (Store.has_of_holderAt ha).1
    exact h.cells a x v (h.outer s a hs hmem) (Store.readCell_ok hv)

end Machine.Within

namespace Eval

theorem lift_meets {result : Except RuntimeError.Cause Value} {operator : Token} (h : m.Within R d)
    (hr : ∀ v, result = .ok v → v.Plain) :
    (lift result operator m).Meets fun v m' => v.Within R ∧ m'.Within R d := by
  cases result with
  | ok v => exact ⟨(hr v rfl).within, h⟩
  | error cause => trivial

theorem access_meets {f : Store → Except AccessError Value} (h : m.Within R d)
    (hf : ∀ v, f m.store = .ok v → v.Within R) :
    (access f name m).Meets fun v m' => v.Within R ∧ m'.Within R d := by
  unfold access
  cases hv : f m.store with
  | ok v => exact ⟨hf v hv, h⟩
  | error e => trivial

/-- What is read is stored where the program can come to, so its functions are free of loops. -/
theorem readName_meets (setting : Setting) (id : OccurrenceId) (name : Token) (h : m.Within R d) :
    (readName setting id name m).Meets fun v m' => v.Within R ∧ m'.Within R d := by
  unfold readName
  cases setting.distances[id]? with
  | some distance => exact access_meets h fun v hv => h.getAt h.scope hv
  | none => exact access_meets h fun v hv => h.get h.globals hv

theorem assign_meets {f : Store → Except AccessError ScopeId} {v : Value} (h : m.Within R d) (hv : v.Within R) :
    (assign f name v m).Meets fun _ m' => m'.Within R d := by
  unfold assign
  cases f m.store with
  | ok s => exact h.setCell (by rintro _ ⟨⟩; exact hv)
  | error e => trivial

theorem assignName_meets (setting : Setting) (id : OccurrenceId) {v : Value} (h : m.Within R d) (hv : v.Within R) :
    (assignName setting id name v m).Meets fun _ m' => m'.Within R d := by
  rw [assignName_eq]
  cases setting.distances[id]? with
  | some distance => exact assign_meets h hv
  | none => exact assign_meets h hv

theorem define_meets {x : String} {v : Value} (h : m.Within R d) (hv : v.Within R) :
    (define s x v m).Meets fun _ m' => m'.Within R d :=
  h.setCell (by rintro _ ⟨⟩; exact hv)

theorem childScope_meets (h : m.Within R d) (hs : R.scope s) :
    (childScope s m).Meets fun t m' => R.scope t ∧ m'.Within R d :=
  ⟨h.next m.store.next (Nat.le_refl _), h.child hs⟩

theorem newObject_meets (h : m.Within R d) : (newObject m).Meets fun id m' => R.object id ∧ m'.Within R d :=
  ⟨h.fresh m.fields.size (Nat.le_refl _), h.newObject⟩

/-- A method with its instance has a new scope, which is in the region as all new ones are. -/
theorem bindThis_meets {method : Closure} {object : Value} (h : m.Within R d) (hmethod : method.Within R)
    (ho : object.Within R) : (bindThis method object m).Meets fun f m' => f.Within R ∧ m'.Within R d := by
  apply meets_bind (childScope_meets h hmethod.scope)
  rintro scope m₁ ⟨hscope, h₁⟩
  apply meets_bind (define_meets h₁ ho)
  intro _ m₂ h₂
  exact ⟨⟨hmethod.loopFree, hscope⟩, h₂.newObject⟩

theorem property_meets {id : ObjectId} {c : Class} (h : m.Within R d) (hid : R.object id) (hc : c.Within R) :
    (property id c name m).Meets fun v m' => v.Within R ∧ m'.Within R d := by
  have hfield : (field? id name.lexeme m).Meets fun v? m' => (∀ v, v? = some v → v.Within R) ∧ m'.Within R d := by
    refine ⟨fun v hv => ?_, h⟩
    obtain ⟨fields, hf, hv⟩ := Option.bind_eq_some_iff.1 hv
    exact h.fields id fields name.lexeme v hid hf hv
  apply meets_bind hfield
  rintro (_ | v) m₁ ⟨hv, h₁⟩
  · dsimp only
    cases hm : c.methods.find? name.lexeme with
    | none => trivial
    | some method =>
      have hobject : (Value.instance id c).Within R := ⟨hid, hc⟩
      exact meets_bind (bindThis_meets h₁ (hc _ method hm) hobject) fun f m₂ hf => hf
  · exact ⟨hv v rfl, h₁⟩

theorem closures_meets {fs : List Function} (h : m.Within R d) (hs : R.scope s) (hfs : Function.loopFreeAll fs) :
    (closures s fs m).Meets fun methods m' => (∀ p ∈ methods, p.2.Within R) ∧ m'.Within R d := by
  induction fs generalizing m with
  | nil => exact ⟨by simp, h⟩
  | cons f fs ih =>
    rw [Function.loopFreeAll, Bool.and_eq_true] at hfs
    apply meets_bind (newObject_meets h)
    rintro id m₁ ⟨-, h₁⟩
    apply meets_bind (ih h₁ hfs.2)
    rintro rest m₂ ⟨hrest, h₂⟩
    exact ⟨List.forall_mem_cons.2 ⟨⟨hfs.1, hs⟩, hrest⟩, h₂⟩

theorem defineAll_meets {ps : List Token} {vs : List Value} (h : m.Within R d) (hvs : ∀ v ∈ vs, v.Within R) :
    (defineAll s ps vs m).Meets fun _ m' => m'.Within R d := by
  induction ps generalizing m vs with
  | nil => exact h
  | cons p ps ih =>
    cases vs with
    | nil => exact h
    | cons v vs =>
      obtain ⟨hv, hvs⟩ := List.forall_mem_cons.1 hvs
      exact meets_bind (define_meets h hv) fun _ m₁ h₁ => ih h₁ hvs

theorem result_meets {f : Closure} {flow : Flow} (h : m.Within R d) (hf : f.Within R) (hflow : flow.Within R) :
    (result f flow m).Meets fun v m' => v.Within R ∧ m'.Within R d := by
  unfold result
  split
  · have hthis : Value.Within R ((m.store.getHere? f.scope "this").getD .nil) := by
      cases hv : m.store.getHere? f.scope "this" with
      | none => trivial
      | some v => exact h.cells f.scope "this" v hf.scope (Option.join_eq_some_iff.1 hv)
    exact ⟨hthis, h⟩
  · cases flow with
    | «return» v => exact ⟨hflow, h⟩
    | _ => exact ⟨trivial, h⟩

/-- A call that is opened was one more than those that are open, and still within the limit. -/
theorem checkCall_meets {arity : Nat} {arguments : List Value} {paren : Token} (h : m.Within R d) :
    (checkCall arity arguments paren m).Meets fun _ m' => d < maxCallDepth ∧ m'.Within R d := by
  unfold checkCall
  split
  · trivial
  · have hread : (read Machine.callDepth m).Meets fun depth m' => depth = d ∧ m'.Within R d := ⟨h.depth, h⟩
    apply meets_bind hread
    rintro _ m₁ ⟨rfl, h₁⟩
    split
    · trivial
    · next hd => exact ⟨Nat.lt_of_not_le hd, h₁⟩

/-- With so many calls open, calls end. -/
def CallsEnd (setting : Setting) (R : Region) (d : Nat) : Prop :=
  ∀ f arguments paren (m : Machine), m.Within R d → f.Within R → (∀ v ∈ arguments, Value.Within R v) →
    Settles (fun fuel => call setting fuel f arguments paren) m fun v m' => v.Within R ∧ m'.Within R d

/-- With so many calls open, bodies of functions end. -/
def RunsEnd (setting : Setting) (R : Region) (d : Nat) : Prop :=
  ∀ f arguments (m : Machine), m.Within R d → f.Within R → (∀ v ∈ arguments, Value.Within R v) →
    Settles (fun fuel => run setting fuel f arguments) m fun v m' => v.Within R ∧ m'.Within R d

mutual

/-- Expressions end, by induction on the tree; only their calls go beyond it. -/
theorem evaluate_settles (hcalls : CallsEnd setting R d) (e : Expr) {m : Machine} (h : m.Within R d) :
    Settles (fun fuel => evaluate setting fuel e) m fun v m' => v.Within R ∧ m'.Within R d := by
  apply Settles.succ
  cases e with
  | literal value => exact .steady ⟨(Literal.value_plain value).within, h⟩
  | group inner => exact evaluate_settles hcalls inner h
  | unary operator operand =>
    apply (evaluate_settles hcalls operand h).bind
    rintro x m₁ ⟨-, h₁⟩
    exact .steady (lift_meets h₁ fun v hv => Value.unary_plain hv)
  | binary left operator right =>
    apply (evaluate_settles hcalls left h).bind
    rintro x m₁ ⟨-, h₁⟩
    apply (evaluate_settles hcalls right h₁).bind
    rintro y m₂ ⟨-, h₂⟩
    exact .steady (lift_meets h₂ fun v hv => Value.binary_plain hv)
  | logical left operator right =>
    apply (evaluate_settles hcalls left h).bind
    rintro x m₁ ⟨hx, h₁⟩
    split
    · exact .steady ⟨hx, h₁⟩
    · exact evaluate_settles hcalls right h₁
  | ternary condition thenBranch elseBranch =>
    apply (evaluate_settles hcalls condition h).bind
    rintro x m₁ ⟨-, h₁⟩
    split
    · exact evaluate_settles hcalls thenBranch h₁
    · exact evaluate_settles hcalls elseBranch h₁
  | «variable» id name => exact .steady (readName_meets setting id name h)
  | this id keyword => exact .steady (readName_meets setting id keyword h)
  | assign id name value =>
    apply (evaluate_settles hcalls value h).bind
    rintro x m₁ ⟨hx, h₁⟩
    exact .steady (meets_bind (assignName_meets setting id h₁ hx) fun _ m₂ h₂ => ⟨hx, h₂⟩)
  | call callee paren given =>
    apply (evaluate_settles hcalls callee h).bind
    rintro f m₁ ⟨hf, h₁⟩
    apply (values_settles hcalls given h₁).bind
    rintro arguments m₂ ⟨harguments, h₂⟩
    exact hcalls f arguments paren m₂ h₂ hf harguments
  | get object name =>
    apply (evaluate_settles hcalls object h).bind
    rintro x m₁ ⟨hx, h₁⟩
    cases x with
    | «instance» id c => exact .steady (property_meets h₁ hx.1 hx.2)
    | _ => exact .steady trivial
  | set object name value =>
    apply (evaluate_settles hcalls object h).bind
    rintro x m₁ ⟨-, h₁⟩
    cases x with
    | «instance» id c =>
      apply (evaluate_settles hcalls value h₁).bind
      rintro y m₂ ⟨hy, h₂⟩
      exact .steady ⟨hy, h₂.setField hy⟩
    | _ => exact .steady trivial

theorem values_settles (hcalls : CallsEnd setting R d) (es : List Expr) {m : Machine} (h : m.Within R d) :
    Settles (fun fuel => Operations.values (evaluate setting fuel) es) m fun vs m' =>
      (∀ v ∈ vs, Value.Within R v) ∧ m'.Within R d := by
  cases es with
  | nil => exact .steady ⟨by simp, h⟩
  | cons e es =>
    apply (evaluate_settles hcalls e h).bind
    rintro v m₁ ⟨hv, h₁⟩
    apply (values_settles hcalls es h₁).bind
    rintro vs m₂ ⟨hvs, h₂⟩
    exact .steady ⟨List.forall_mem_cons.2 ⟨hv, hvs⟩, h₂⟩

end

mutual

theorem execute_settles (hcalls : CallsEnd setting R d) (s : Stmt) (hs : s.loopFree) {m : Machine}
    (h : m.Within R d) :
    Settles (fun fuel => execute setting fuel s) m fun flow m' => flow.Within R ∧ m'.Within R d := by
  apply Settles.succ
  cases s with
  | expression value =>
    apply (evaluate_settles hcalls value h).bind
    rintro _ m₁ ⟨-, h₁⟩
    exact .steady ⟨trivial, h₁⟩
  | print value =>
    apply (evaluate_settles hcalls value h).bind
    rintro x m₁ ⟨-, h₁⟩
    exact .steady ⟨trivial, h₁.of_eq rfl rfl h₁.scope h₁.depth⟩
  | var name initializer =>
    cases initializer with
    | none => exact .steady ⟨trivial, h.setCell (by simp)⟩
    | some value =>
      apply (evaluate_settles hcalls value h).bind
      rintro x m₁ ⟨hx, h₁⟩
      exact .steady (meets_bind (define_meets h₁ hx) fun _ m₂ h₂ => ⟨trivial, h₂⟩)
  | block body =>
    apply (Settles.steady (read_meets Machine.scope m)).bind
    rintro _ _ ⟨rfl, rfl⟩
    apply (Settles.steady (childScope_meets h h.scope)).bind
    rintro scope m₁ ⟨hscope, h₁⟩
    apply Settles.inScope h₁
    exact sequence_settles hcalls body hs (h₁.of_eq rfl rfl hscope h₁.depth)
  | branch condition thenBranch elseBranch =>
    apply (evaluate_settles hcalls condition h).bind
    rintro x m₁ ⟨-, h₁⟩
    cases elseBranch with
    | none =>
      split
      · exact execute_settles hcalls thenBranch hs h₁
      · exact .steady ⟨trivial, h₁⟩
    | some elseBranch =>
      rw [Stmt.loopFree, Bool.and_eq_true] at hs
      split
      · exact execute_settles hcalls thenBranch hs.1 h₁
      · exact execute_settles hcalls elseBranch hs.2 h₁
  | loop condition body => cases hs
  | «break» keyword =>
    apply (Settles.steady (read_meets Machine.loopDepth m)).bind
    rintro _ _ ⟨rfl, rfl⟩
    split
    · exact .steady trivial
    · exact .steady ⟨trivial, h⟩
  | «return» keyword value =>
    cases value with
    | none => exact .steady ⟨trivial, h⟩
    | some value =>
      apply (evaluate_settles hcalls value h).bind
      rintro x m₁ ⟨hx, h₁⟩
      exact .steady ⟨hx, h₁⟩
  | function f =>
    have hf : ∀ id, Value.Within R (.function ⟨id, f, m.scope, false⟩) := fun id => ⟨hs, h.scope⟩
    apply (Settles.steady (read_meets Machine.scope m)).bind
    rintro _ _ ⟨rfl, rfl⟩
    apply (Settles.steady (newObject_meets h)).bind
    rintro id m₁ ⟨-, h₁⟩
    exact .steady (meets_bind (define_meets h₁ (hf id)) fun _ m₂ h₂ => ⟨trivial, h₂⟩)
  | «class» name methods =>
    apply (Settles.steady (read_meets Machine.scope m)).bind
    rintro _ _ ⟨rfl, rfl⟩
    have hdeclare : (declare m.scope name.lexeme m).Meets fun _ m' => m'.Within R d := h.setCell (by simp)
    apply (Settles.steady hdeclare).bind
    intro _ m₁ h₁
    apply (Settles.steady (closures_meets h₁ h.scope hs)).bind
    rintro entries m₂ ⟨hentries, h₂⟩
    apply (Settles.steady (newObject_meets h₂)).bind
    rintro id m₃ ⟨-, h₃⟩
    have hc : Value.Within R (.class ⟨id, name.lexeme, .ofList entries⟩) :=
      fun x method hm => hentries (x, method) (NameMap.mem_of_find?_ofList hm)
    have hassign : (assign (·.holder m.scope name.lexeme) name (.class ⟨id, name.lexeme, .ofList entries⟩) m₃).Meets
        fun _ m' => m'.Within R d := assign_meets h₃ hc
    exact .steady (meets_bind hassign fun _ m₄ h₄ => ⟨trivial, h₄⟩)

theorem sequence_settles (hcalls : CallsEnd setting R d) (ss : List Stmt) (hs : Stmt.loopFreeAll ss)
    {m : Machine} (h : m.Within R d) :
    Settles (fun fuel => Operations.sequence (execute setting fuel) ss) m
      fun flow m' => flow.Within R ∧ m'.Within R d := by
  cases ss with
  | nil => exact .steady ⟨trivial, h⟩
  | cons s ss =>
    rw [Stmt.loopFreeAll, Bool.and_eq_true] at hs
    apply (execute_settles hcalls s hs.1 h).bind
    rintro flow m₁ ⟨hflow, h₁⟩
    cases flow with
    | normal => exact sequence_settles hcalls ss hs.2 h₁
    | _ => exact .steady ⟨hflow, h₁⟩

end

/-- The body of a function is a tree without loops, so it ends if calls in it do. -/
theorem run_settles (hcalls : CallsEnd setting R d) : RunsEnd setting R d := by
  intro f arguments m h hf harguments
  apply Settles.succ
  apply (Settles.steady (childScope_meets h hf.scope)).bind
  rintro scope m₁ ⟨hscope, h₁⟩
  apply (Settles.steady (defineAll_meets h₁ harguments)).bind
  intro _ m₂ h₂
  have hm : { m₂ with loopDepth := 0, scope := scope }.Within R d := h₂.of_eq rfl rfl hscope h₂.depth
  have hbody := sequence_settles hcalls f.declaration.body (Function.body_loopFree hf.loopFree) hm
  have hout : { m₂ with loopDepth := 0 }.Within R d := h₂.of_eq rfl rfl h₂.scope h₂.depth
  apply (Settles.outsideLoops (.inScope hout hbody)).bind
  rintro flow m₃ ⟨hflow, h₃⟩
  exact .steady (result_meets h₃ hf hflow)

/-- A call ends if bodies of functions end with one call more open, as far as it may be opened. -/
theorem call_settles (hruns : d < maxCallDepth → RunsEnd setting R (d + 1)) : CallsEnd setting R d := by
  intro f arguments paren m h hf harguments
  have hopen : ∀ {m : Machine}, m.Within R d → { m with callDepth := m.callDepth + 1 }.Within R (d + 1) :=
    fun h => h.of_eq rfl rfl h.scope (by rw [h.depth])
  apply Settles.succ
  cases f with
  | native f =>
    cases f
    apply (Settles.steady (checkCall_meets h)).bind
    rintro _ m₁ ⟨-, h₁⟩
    exact .inCall (.steady ⟨trivial, (hopen h₁).of_eq rfl rfl (hopen h₁).scope (hopen h₁).depth⟩)
  | function f =>
    apply (Settles.steady (checkCall_meets h)).bind
    rintro _ m₁ ⟨hd, h₁⟩
    exact .inCall (hruns hd f arguments _ (hopen h₁) hf harguments)
  | «class» c =>
    apply (Settles.steady (checkCall_meets h)).bind
    rintro _ m₁ ⟨hd, h₁⟩
    apply Settles.inCall
    apply (Settles.steady (newObject_meets (hopen h₁))).bind
    rintro id m₂ ⟨hid, h₂⟩
    have hobject : (Value.instance id c).Within R := ⟨hid, hf⟩
    cases hm : c.initializer? with
    | none => exact .steady ⟨hobject, h₂⟩
    | some method =>
      -- The initializer runs within the call of its class, which has been counted.
      apply (Settles.steady (bindThis_meets h₂ (hf "init" method hm) hobject)).bind
      rintro f m₃ ⟨hbound, h₃⟩
      apply (hruns hd f arguments m₃ h₃ hbound harguments).bind
      rintro _ m₄ ⟨-, h₄⟩
      exact .steady ⟨hobject, h₄⟩
  | _ => exact .steady trivial

/-- Calls end, by induction on how many more may be opened. -/
theorem callsEnd (setting : Setting) (R : Region) (d : Nat) : CallsEnd setting R d := by
  induction hleft : maxCallDepth - d generalizing d with
  | zero => exact call_settles fun hd => absurd hleft (Nat.sub_ne_zero_of_lt hd)
  | succ left ih =>
    refine call_settles fun hd => run_settles (ih (d + 1) ?_)
    rw [Nat.sub_add_eq, hleft, Nat.add_sub_cancel]

end Eval

end LoxLang
