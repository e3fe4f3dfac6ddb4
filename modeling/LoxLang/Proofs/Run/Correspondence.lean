import LoxLang.Proofs.Run.Computations

namespace LoxLang

variable {M N : Type → Type} [Monad M] [Monad N] {R : (α : Type) → M α → N α → Prop}

/-- A relation between computations of two kinds that goes on from one computation to the next. -/
structure Composes (R : (α : Type) → M α → N α → Prop) : Prop where
  pure : ∀ {α : Type} (a : α), R α (pure a) (pure a)
  bind : ∀ {α β : Type} {x : M α} {y : N α} {f : α → M β} {g : α → N β},
    R α x y → (∀ a, R β (f a) (g a)) → R β (x >>= f) (y >>= g)
  map : ∀ {α β : Type} {x : M α} {y : N α} (f : α → β), R α x y → R β (f <$> x) (f <$> y)

namespace Composes

/-- Statements one after another correspond if each of them does; a `break` or `return` ends both sequences at the same
one. -/
theorem sequence (h : Composes R) {step : Stmt → M Flow} {step' : Stmt → N Flow}
    (hs : ∀ s, R Flow (step s) (step' s)) (ss : List Stmt) :
    R Flow (Operations.sequence step ss) (Operations.sequence step' ss) := by
  induction ss with
  | nil => exact h.pure _
  | cons s ss ih =>
    apply h.bind (hs s)
    intro flow
    cases flow with
    | normal => exact ih
    | «break» => exact h.pure _
    | «return» value => exact h.pure _

theorem values (h : Composes R) {step : Expr → M Value} {step' : Expr → N Value}
    (hs : ∀ e, R Value (step e) (step' e)) (es : List Expr) :
    R (List Value) (Operations.values step es) (Operations.values step' es) := by
  induction es with
  | nil => exact h.pure _
  | cons e es ih => exact h.bind (hs e) fun first => h.bind ih fun rest => h.pure _

theorem repeated (h : Composes R) {exhausted condition body} {exhausted' condition' body'}
    (he : R Flow exhausted exhausted') (hc : R Bool condition condition') (hb : R Flow body body') (fuel : Nat) :
    R Flow (Operations.repeated exhausted condition body fuel)
      (Operations.repeated exhausted' condition' body' fuel) := by
  induction fuel with
  | zero => exact he
  | succ fuel ih =>
    apply h.bind hc
    intro holds
    cases holds with
    | false => exact h.pure _
    | true =>
      apply h.bind hb
      intro flow
      cases flow with
      | normal => exact ih
      | «break» => exact h.pure _
      | «return» value => exact h.pure _

theorem runAll (h : Composes R) {step : Stmt → M Flow} {step' : Stmt → N Flow}
    (hs : ∀ s, R Flow (step s) (step' s)) (ss : List Stmt) :
    R Unit (Operations.runAll step ss) (Operations.runAll step' ss) := by
  induction ss with
  | nil => exact h.pure ()
  | cons s ss ih => exact h.bind (hs s) fun _ => ih

end Composes

/-- A statement without parts to be run. -/
def Stmt.isSimple : Stmt → Bool
  | .var _ none | .break _ | .return _ none | .function _ | .class _ _ => true
  | _ => false

/-- Changes in computations of two kinds that correspond. The looks are only those that change nothing. -/
structure Changes.Correspond (R : (α : Type) → M α → N α → Prop) (changes : Changes M) (changes' : Changes N) : Prop
    extends Composes R where
  look : ∀ {α : Type} {x : Eval α}, x.Still → R α (changes.look x) (changes'.look x)
  childScope : ∀ s, R ScopeId (changes.childScope s) (changes'.childScope s)
  define : ∀ s name value, R Unit (changes.define s name value) (changes'.define s name value)
  declare : ∀ s name, R Unit (changes.declare s name) (changes'.declare s name)
  assign : ∀ f name value, R Unit (changes.assign f name value) (changes'.assign f name value)
  newObject : R ObjectId changes.newObject changes'.newObject
  setField : ∀ object name value, R Unit (changes.setField object name value) (changes'.setField object name value)
  print : ∀ line, R Unit (changes.print line) (changes'.print line)

namespace Changes.Correspond

variable {changes : Changes M} {changes' : Changes N}

theorem bindThis (h : Changes.Correspond R changes changes') (method : Closure) (object : Value) :
    R Closure (changes.bindThis method object) (changes'.bindThis method object) :=
  h.bind (h.childScope method.scope) fun scope => h.bind (h.define scope "this" object) fun _ =>
    h.bind h.newObject fun _ => h.pure _

theorem property (h : Changes.Correspond R changes changes') (object : ObjectId) (cls : Class) (name : Token) :
    R Value (changes.property object cls name) (changes'.property object cls name) := by
  apply h.bind (h.look (Eval.still_read _))
  intro value
  cases value with
  | some value => exact h.pure value
  | none =>
    dsimp only
    cases cls.methods.find? name.lexeme with
    | none => exact h.look (Eval.still_fail _ name)
    | some method => exact h.map _ (h.bindThis method (.instance object cls))

/-- The methods of a class get their identities one by one, in the order of the text. -/
theorem closures (h : Changes.Correspond R changes changes') (scope : ScopeId) (fs : List Function) :
    R (List (String × Closure)) (changes.closures scope fs) (changes'.closures scope fs) := by
  induction fs with
  | nil => exact h.pure _
  | cons f fs ih => exact h.bind h.newObject fun id => h.bind ih fun rest => h.pure _

theorem defineAll (h : Changes.Correspond R changes changes') (scope : ScopeId) (ps : List Token) (vs : List Value) :
    R Unit (changes.defineAll scope ps vs) (changes'.defineAll scope ps vs) := by
  induction ps generalizing vs with
  | nil => exact h.pure _
  | cons p ps ih =>
    cases vs with
    | nil => exact h.pure _
    | cons v vs => exact h.bind (h.define scope p.lexeme v) fun _ => ih vs

/-- Both assign by the same distance, which the setting has noted. -/
theorem assignName (h : Changes.Correspond R changes changes') (setting : Setting) (id : OccurrenceId) (name : Token)
    (value : Value) :
    R Unit (changes.assignName setting id name value) (changes'.assignName setting id name value) := by
  unfold Changes.assignName
  cases setting.distances[id]? with
  | none => exact h.assign _ name value
  | some d => exact h.bind (h.look (Eval.still_read _)) fun scope => h.assign _ name value

/-- A simple statement makes changes only. -/
theorem simple {ops : Operations M} {ops' : Operations N} (h : Changes.Correspond R ops.toChanges ops'.toChanges)
    {evaluate : Expr → M Value} {evaluate' : Expr → N Value} {execute : Stmt → M Flow} {execute' : Stmt → N Flow}
    {fuel fuel' : Nat} {s : Stmt} (hs : s.isSimple) :
    R Flow (ops.statement evaluate execute fuel s) (ops'.statement evaluate' execute' fuel' s) := by
  cases s with
  | var name initializer =>
    cases initializer with
    | none =>
      apply h.bind (h.look (Eval.still_read _))
      intro scope
      exact h.bind (h.declare scope name.lexeme) fun _ => h.pure _
    | some value => cases hs
  | «break» keyword =>
    apply h.bind (h.look (Eval.still_read _))
    intro depth
    split
    · exact h.look (Eval.still_fail _ keyword)
    · exact h.pure _
  | «return» keyword value =>
    cases value with
    | none => exact h.pure _
    | some value => cases hs
  | function declaration =>
    apply h.bind (h.look (Eval.still_read _))
    intro scope
    exact h.bind h.newObject fun _ => h.bind (h.define scope declaration.name.lexeme _) fun _ => h.pure _
  | «class» name declared =>
    apply h.bind (h.look (Eval.still_read _))
    intro scope
    apply h.bind (h.declare scope name.lexeme)
    intro _
    exact h.bind (h.closures scope declared) fun methods => h.bind h.newObject fun id =>
      h.bind (h.assign _ name _) fun _ => h.pure _
  | _ => cases hs

end Changes.Correspond

namespace Operations

/-- Operations in computations of two kinds that correspond, and so do the runs with them. -/
structure Correspond (R : (α : Type) → M α → N α → Prop) (ops : Operations M) (ops' : Operations N) : Prop
    extends Changes.Correspond R ops.toChanges ops'.toChanges where
  readClock : R Number ops.readClock ops'.readClock
  readName : ∀ form id name, R Value (ops.readName form id name) (ops'.readName form id name)
  assignName : ∀ id name value, R Unit (ops.assignName id name value) (ops'.assignName id name value)
  property : ∀ object cls name, R Value (ops.property object cls name) (ops'.property object cls name)
  construct : ∀ f {x y}, R Value x y → R Value (ops.construct f x) (ops'.construct f y)
  inScope : ∀ s {x y}, R Flow x y → R Flow (ops.inScope s x) (ops'.inScope s y)
  inLoop : ∀ {x y}, R Flow x y → R Flow (ops.inLoop x) (ops'.inLoop y)
  outsideLoops : ∀ {x y}, R Flow x y → R Flow (ops.outsideLoops x) (ops'.outsideLoops y)
  inCall : ∀ arity arguments paren {x y}, R Value x y →
    R Value (ops.inCall arity arguments paren x) (ops'.inCall arity arguments paren y)
  turns : ∀ {condition condition' body body'}, R Bool condition condition' → R Flow body body' →
    ∀ fuel, R Flow (ops.turns condition body fuel) (ops'.turns condition' body' fuel)

namespace Correspond

variable {ops : Operations M} {ops' : Operations N}

/-- Subexpressions and calls are evaluated in one order in all kinds of runs, so they correspond if the single
evaluations do. -/
theorem expression (h : Correspond R ops ops') {evaluate : Expr → M Value} {evaluate' : Expr → N Value}
    {call : Value → List Value → Token → M Value} {call' : Value → List Value → Token → N Value}
    (he : ∀ e, R Value (evaluate e) (evaluate' e))
    (hc : ∀ f arguments paren, R Value (call f arguments paren) (call' f arguments paren)) (e : Expr) :
    R Value (ops.expression evaluate call e) (ops'.expression evaluate' call' e) := by
  cases e with
  | literal value => exact h.pure _
  | group inner => exact he inner
  | unary operator operand => exact h.bind (he operand) fun x => h.look (Eval.still_lift _ operator)
  | binary left operator right =>
    exact h.bind (he left) fun x => h.bind (he right) fun y => h.look (Eval.still_lift _ operator)
  | logical left operator right =>
    apply h.bind (he left)
    intro x
    split
    · exact h.pure x
    · exact he right
  | ternary condition thenBranch elseBranch =>
    apply h.bind (he condition)
    intro x
    split
    · exact he thenBranch
    · exact he elseBranch
  | «variable» id name => exact h.readName .variable id name
  | this id keyword => exact h.readName .this id keyword
  | assign id name value => exact h.bind (he value) fun x => h.bind (h.assignName id name x) fun _ => h.pure x
  | call callee paren given =>
    exact h.bind (he callee) fun f => h.bind (h.values he given) fun arguments => hc f arguments paren
  | get object name =>
    apply h.bind (he object)
    intro x
    cases x with
    | «instance» id cls => exact h.property id cls name
    | _ => exact h.look (Eval.still_fail _ name)
  | set object name value =>
    apply h.bind (he object)
    intro x
    cases x with
    | «instance» id cls => exact h.bind (he value) fun y => h.bind (h.setField id name.lexeme y) fun _ => h.pure y
    | _ => exact h.look (Eval.still_fail _ name)

/-- Likewise for a statement: what corresponds is taken apart by its form. -/
theorem statement (h : Correspond R ops ops') {evaluate : Expr → M Value} {evaluate' : Expr → N Value}
    {execute : Stmt → M Flow} {execute' : Stmt → N Flow} (he : ∀ e, R Value (evaluate e) (evaluate' e))
    (hs : ∀ s, R Flow (execute s) (execute' s)) (fuel : Nat) (s : Stmt) :
    R Flow (ops.statement evaluate execute fuel s) (ops'.statement evaluate' execute' fuel s) := by
  cases s with
  | expression value => exact h.bind (he value) fun x => h.pure _
  | print value => exact h.bind (he value) fun x => h.bind (h.print x.display) fun _ => h.pure _
  | var name initializer =>
    cases initializer with
    | none => exact h.simple rfl
    | some value =>
      apply h.bind (he value)
      intro x
      apply h.bind (h.look (Eval.still_read _))
      intro scope
      exact h.bind (h.define scope name.lexeme x) fun _ => h.pure _
  | block body =>
    apply h.bind (h.look (Eval.still_read _))
    intro outer
    exact h.bind (h.childScope outer) fun scope => h.inScope scope (h.sequence hs body)
  | branch condition thenBranch elseBranch =>
    apply h.bind (he condition)
    intro x
    split
    · exact hs thenBranch
    · cases elseBranch with
      | none => exact h.pure _
      | some elseBranch => exact hs elseBranch
  | loop condition body => exact h.inLoop (h.turns (h.map _ (he condition)) (hs body) fuel)
  | «return» keyword value =>
    cases value with
    | none => exact h.simple rfl
    | some value => exact h.bind (he value) fun x => h.pure _
  | «break» | function | «class» => exact h.simple rfl

theorem calling (h : Correspond R ops ops') {run : Closure → List Value → M Value}
    {run' : Closure → List Value → N Value} (hr : ∀ f arguments, R Value (run f arguments) (run' f arguments))
    (arguments : List Value) (paren : Token) (callee : Value) :
    R Value (ops.calling run arguments paren callee) (ops'.calling run' arguments paren callee) := by
  cases callee with
  | native f =>
    cases f
    exact h.inCall _ arguments paren (h.map _ h.readClock)
  | function f => exact h.inCall _ arguments paren (hr f arguments)
  | «class» c =>
    apply h.inCall _ arguments paren
    apply h.bind h.newObject
    intro id
    cases c.initializer? with
    | none => exact h.pure _
    | some method =>
      exact h.bind (h.bindThis method (.instance id c)) fun f =>
        h.construct f (h.bind (hr f arguments) fun _ => h.pure _)
  | _ => exact h.look (Eval.still_fail _ paren)

/-- The body of a function, with its parameters and the instance of an initializer. -/
theorem body (h : Correspond R ops ops') {execute : Stmt → M Flow} {execute' : Stmt → N Flow}
    (hs : ∀ s, R Flow (execute s) (execute' s)) (f : Closure) (arguments : List Value) :
    R Value (ops.body execute f arguments) (ops'.body execute' f arguments) := by
  apply h.bind (h.childScope f.scope)
  intro scope
  apply h.bind (h.defineAll scope f.declaration.parameters arguments)
  intro _
  apply h.bind (h.outsideLoops (h.inScope scope (h.sequence hs f.declaration.body)))
  intro flow
  exact h.look (Eval.still_result f flow)

end Correspond

/-- With so much fuel, all runs correspond. -/
structure CorrespondAt (R : (α : Type) → M α → N α → Prop) (ops : Operations M) (ops' : Operations N) (fuel : Nat) :
    Prop where
  evaluate : ∀ e, R Value (ops.evaluate fuel e) (ops'.evaluate fuel e)
  execute : ∀ s, R Flow (ops.execute fuel s) (ops'.execute fuel s)
  call : ∀ callee arguments paren,
    R Value (ops.call fuel callee arguments paren) (ops'.call fuel callee arguments paren)
  run : ∀ f arguments, R Value (ops.run fuel f arguments) (ops'.run fuel f arguments)

/-- One lemma for all kinds of runs: they correspond if their operations do. -/
theorem Correspond.at {ops : Operations M} {ops' : Operations N} (h : Correspond R ops ops') (fuel : Nat) :
    CorrespondAt R ops ops' fuel := by
  induction fuel with
  | zero =>
    have he : ∀ {α : Type}, R α (ops.look Eval.exhausted) (ops'.look Eval.exhausted) := h.look Eval.still_exhausted
    exact ⟨fun _ => he, fun _ => he, fun _ _ _ => he, fun _ _ => he⟩
  | succ fuel ih =>
    constructor
    case evaluate => exact h.expression ih.evaluate ih.call
    case execute => exact h.statement ih.evaluate ih.execute fuel
    case call => exact fun callee arguments paren => h.calling ih.run arguments paren callee
    case run => exact h.body ih.execute

end Operations

end LoxLang
