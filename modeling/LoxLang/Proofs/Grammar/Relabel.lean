import LoxLang.Proofs.Grammar.Readers
import LoxLang.Proofs.Tree.Relabel

namespace LoxLang

/-- The same error at a token on another line. -/
def SyntaxError.relined (line : Nat → Nat) (e : SyntaxError) : SyntaxError := { e with token := e.token.relined line }

namespace Parse

variable {α β : Type} {line : Nat → Nat} {k : Nat}

def State.relabel (line : Nat → Nat) (k : Nat) (s : State) : State where
  tokens := s.tokens.map (Token.relined line)
  finish := s.finish.relined line
  errors := s.errors.map (SyntaxError.relined line)
  nextId := s.nextId + k

def Outcome.relabel (line : Nat → Nat) (k : Nat) (g : α → α) : Outcome α → Outcome α
  | .done a s => .done (g a) (s.relabel line k)
  | .failed e s => .failed (e.relined line) (s.relabel line k)
  | .exhausted => .exhausted

/-- The token at hand is on its other line. -/
theorem State.relabel_current (s : State) : (s.relabel line k).current = s.current.relined line := by
  unfold State.current State.relabel
  cases s.tokens <;> rfl

/-- The second reader does on other lines and with other identities what the first does. -/
def Natural (line : Nat → Nat) (k : Nat) (g : α → α) (x y : Parse α) : Prop :=
  ∀ s, y (s.relabel line k) = (x s).relabel line k g

namespace Natural

variable {g : α → α} {h : β → β}

theorem pure {a b : α} (hab : b = g a) : Natural line k g (Pure.pure a) (Pure.pure b) := by
  intro s
  rw [hab]
  rfl

theorem exhausted : Natural line k g exhausted exhausted := fun _ => rfl

/-- Readers that do the same one after another do the same. -/
theorem bind {x y : Parse α} {f f' : α → Parse β} (hx : Natural line k g x y)
    (hf : ∀ a, Natural line k h (f a) (f' (g a))) : Natural line k h (x >>= f) (y >>= f') := by
  intro s
  have hs := hx s
  cases hxs : x s with
  | done a s' =>
    rw [hxs] at hs
    rw [bind_done hxs, bind_done hs]
    exact hf a s'
  | failed e s' =>
    rw [hxs] at hs
    rw [bind_failed hxs, bind_failed hs]
    rfl
  | exhausted =>
    rw [hxs] at hs
    rw [bind_exhausted hxs, bind_exhausted hs]
    rfl

theorem map {x y : Parse α} {f f' : α → β} (hx : Natural line k g x y) (hf : ∀ a, f' (g a) = h (f a)) :
    Natural line k h (f <$> x) (f' <$> y) := by
  rw [← bind_pure_comp, ← bind_pure_comp]
  exact .bind hx fun a => .pure (hf a)

/-- An error is raised at the token on its other line. -/
theorem fail (cause : SyntaxError.Cause) : Natural line k g (Parse.fail cause) (Parse.fail cause) := by
  intro s
  unfold Parse.fail
  rw [State.relabel_current]
  rfl

theorem report (cause : SyntaxError.Cause) (t : Token) :
    Natural line k id (Parse.report cause t) (Parse.report cause (t.relined line)) := by
  intro s
  simp [Parse.report, Outcome.relabel, State.relabel, SyntaxError.relined]

theorem current : Natural line k (Token.relined line) Parse.current Parse.current := by
  intro s
  unfold Parse.current
  rw [State.relabel_current]
  rfl

/-- The identity given out is another one. -/
theorem freshId : Natural line k (· + k) Parse.freshId Parse.freshId := by
  intro s
  simp [Parse.freshId, Outcome.relabel, State.relabel, Nat.add_right_comm]

theorem next {p : Token → Bool} (hp : ∀ t : Token, p (t.relined line) = p t) :
    Natural line k id (Parse.next p) (Parse.next p) := by
  intro s
  unfold Parse.next
  cases hs : s.tokens with
  | nil => simp [State.relabel, hs, Outcome.relabel]
  | cons t ts => simp [State.relabel, hs, Outcome.relabel, hp]

theorem atEnd (inBraces : Bool) : Natural line k id (Parse.atEnd inBraces) (Parse.atEnd inBraces) := by
  intro s
  unfold Parse.atEnd
  cases hs : s.tokens with
  | nil => simp [State.relabel, hs, Outcome.relabel]
  | cons t ts => simp [State.relabel, hs, Outcome.relabel, Token.isMark]

/-- Whether a token is taken does not depend on its line. -/
theorem take? {f : Token → Option α} (hf : ∀ t : Token, f (t.relined line) = (f t).map g) :
    Natural line k (Option.map g) (Parse.take? f) (Parse.take? f) := by
  intro s
  unfold Parse.take?
  cases hs : s.tokens with
  | nil => simp [State.relabel, hs, Outcome.relabel]
  | cons t ts => cases ht : f t <;> simp [State.relabel, hs, Outcome.relabel, hf, ht]

theorem accept? {p : Token → Bool} (hp : ∀ t : Token, p (t.relined line) = p t) :
    Natural line k (Option.map (Token.relined line)) (Parse.accept? p) (Parse.accept? p) := by
  refine .take? fun t => ?_
  rw [hp]
  split <;> rfl

theorem accept {p : Token → Bool} (hp : ∀ t : Token, p (t.relined line) = p t) :
    Natural line k id (Parse.accept p) (Parse.accept p) :=
  .bind (.accept? hp) fun t => .pure (by simp)

theorem expect {p : Token → Bool} {cause : SyntaxError.Cause} (hp : ∀ t : Token, p (t.relined line) = p t) :
    Natural line k (Token.relined line) (Parse.expect p cause) (Parse.expect p cause) := by
  refine .bind (.accept? hp) fun t => ?_
  cases t with
  | none => exact .fail cause
  | some t => exact .pure rfl

/-- Items with commas between them. -/
theorem commas {item : Parse α} {others : Parse (List α)} {g : α → α} {gs : List α → List α}
    (hitem : Natural line k g item item) (hothers : Natural line k gs others others) (hone : ∀ a, gs [a] = [g a])
    (hcons : ∀ a as, gs (a :: as) = g a :: gs as) :
    Natural line k gs (Parse.commas item others) (Parse.commas item others) := by
  refine .bind hitem fun first => .bind (.accept fun _ => rfl) fun more => ?_
  cases more with
  | true => exact .bind hothers fun rest => .pure (hcons first rest).symm
  | false => exact .pure (hone first).symm

end Natural

/-- What all readers of expressions do. -/
structure ExprNatural (line : Nat → Nat) (k fuel : Nat) : Prop where
  expression : Natural line k (Expr.relabel line (· + k)) (expression fuel) (expression fuel)
  ternary : Natural line k (Expr.relabel line (· + k)) (ternary fuel) (ternary fuel)
  binary : ∀ l, Natural line k (Expr.relabel line (· + k)) (binary fuel l) (binary fuel l)
  operand : ∀ l, Natural line k (Expr.relabel line (· + k)) (operand fuel l) (operand fuel l)
  chain : ∀ l left, Natural line k (Expr.relabel line (· + k)) (chain fuel l left)
    (chain fuel l (left.relabel line (· + k)))
  unary : Natural line k (Expr.relabel line (· + k)) (unary fuel) (unary fuel)
  suffixes : ∀ callee, Natural line k (Expr.relabel line (· + k)) (suffixes fuel callee)
    (suffixes fuel (callee.relabel line (· + k)))
  arguments : Natural line k (Expr.relabelAll line (· + k)) (arguments fuel) (arguments fuel)
  argumentsFrom : ∀ count, Natural line k (Expr.relabelAll line (· + k)) (argumentsFrom fuel count)
    (argumentsFrom fuel count)
  primary : Natural line k (Expr.relabel line (· + k)) (primary fuel) (primary fuel)

/-- An assignment makes the same of a relabelled left side. -/
theorem assignment_natural (target : Expr) (equals : Token) (value : Expr) :
    Natural line k (Expr.relabel line (· + k)) (assignment target equals value)
      (assignment (target.relabel line (· + k)) (equals.relined line) (value.relabel line (· + k))) := by
  unfold assignment
  cases target with
  | «variable» i name => exact .bind .freshId fun j => .pure rfl
  | get object name => exact .pure rfl
  | _ => exact .bind (.report _ equals) fun _ => .pure rfl

theorem join_relabel (l : Level) (left : Expr) (operator : Token) (right : Expr) :
    l.join (left.relabel line (· + k)) (operator.relined line) (right.relabel line (· + k)) =
      (l.join left operator right).relabel line (· + k) := by
  cases l <;> rfl

/-- All readers of expressions, by induction on fuel. -/
theorem exprNatural (line : Nat → Nat) (k fuel : Nat) : ExprNatural line k fuel := by
  induction fuel with
  | zero => constructor <;> intros <;> exact .exhausted
  | succ fuel ih =>
    constructor
    case expression =>
      unfold expression
      refine .bind ih.ternary fun target => .bind (.accept? fun _ => rfl) fun equals => ?_
      cases equals with
      | none => exact .pure rfl
      | some equals => exact .bind ih.expression fun value => assignment_natural target equals value
    case ternary =>
      unfold ternary
      refine .bind (ih.binary .or) fun condition => .bind (.accept fun _ => rfl) fun asked => ?_
      cases asked with
      | false => exact .pure rfl
      | true =>
        refine .bind ih.ternary fun yes => .bind (.expect fun _ => rfl) fun colon => ?_
        exact .bind ih.ternary fun no => .pure rfl
    case binary =>
      intro l
      unfold binary
      exact .bind (ih.operand l) fun left => ih.chain l left
    case operand =>
      intro l
      unfold operand
      cases l.tighter? with
      | none => exact ih.unary
      | some tighter => exact ih.binary tighter
    case chain =>
      intro l left
      unfold chain
      refine .bind (.accept? fun _ => rfl) fun operator => ?_
      cases operator with
      | none => exact .pure rfl
      | some operator =>
        refine .bind (ih.operand l) fun right => ?_
        have hchain := ih.chain l (l.join left operator right)
        rw [← join_relabel] at hchain
        exact hchain
    case unary =>
      unfold unary
      refine .bind (.accept? fun _ => rfl) fun operator => ?_
      cases operator with
      | none => exact .bind ih.primary fun callee => ih.suffixes callee
      | some operator => exact .bind ih.unary fun right => .pure rfl
    case suffixes =>
      intro callee
      unfold suffixes
      refine .bind (.accept fun _ => rfl) fun called => ?_
      cases called with
      | true =>
        refine .bind ih.arguments fun given => .bind (.expect fun _ => rfl) fun paren => ?_
        exact ih.suffixes (.call callee paren given)
      | false =>
        refine .bind (.accept fun _ => rfl) fun dotted => ?_
        cases dotted with
        | true => exact .bind (.expect fun _ => rfl) fun name => ih.suffixes (.get callee name)
        | false => exact .pure rfl
    case arguments =>
      unfold arguments
      refine .bind (.next fun _ => rfl) fun closed => ?_
      cases closed with
      | true => exact .pure rfl
      | false => exact ih.argumentsFrom 0
    case argumentsFrom =>
      intro count
      have hrest : Natural line k (Expr.relabelAll line (· + k)) _ _ :=
        .commas ih.expression (ih.argumentsFrom (count + 1)) (fun _ => rfl) fun _ _ => rfl
      unfold argumentsFrom
      split
      · exact .bind .current fun t => .bind (.report _ t) fun _ => hrest
      · exact hrest
    case primary =>
      unfold primary
      refine .bind (.take? (g := id) fun t => by simp [literal?]) fun value => ?_
      cases value with
      | some value => exact .pure rfl
      | none =>
        refine .bind (.accept? fun _ => rfl) fun keyword => ?_
        cases keyword with
        | some keyword => exact .bind .freshId fun i => .pure rfl
        | none =>
          refine .bind (.accept? fun _ => rfl) fun name => ?_
          cases name with
          | some name => exact .bind .freshId fun i => .pure rfl
          | none =>
            refine .bind (.accept fun _ => rfl) fun grouped => ?_
            cases grouped with
            | true => exact .bind ih.expression fun inner => .bind (.expect fun _ => rfl) fun paren => .pure rfl
            | false => exact .fail _

/-- Where reading resumes has nothing to do with lines. -/
theorem resume_relined (ts : List Token) :
    resume (ts.map (Token.relined line)) = (resume ts).map (Token.relined line) := by
  induction ts with
  | nil => rfl
  | cons t ts ih =>
    have hhead : (ts.map (Token.relined line)).head?.any startsStatement = ts.head?.any startsStatement := by
      cases ts <;> rfl
    rw [List.map_cons, resume, resume, hhead, ih]
    exact (apply_ite (List.map (Token.relined line)) _ ts (resume ts)).symm

/-- What is dropped is dropped on other lines too. -/
theorem Natural.recover {x : Parse Stmt} {g : Stmt → Stmt} (hx : Natural line k g x x) :
    Natural line k (Option.map g) (recover x) (recover x) := by
  intro s
  have hs := hx s
  unfold Parse.recover
  cases hxs : x s with
  | done stmt s' => rw [hs, hxs]; rfl
  | failed e s' =>
    rw [hs, hxs]
    simp [Outcome.relabel, State.relabel, resume_relined]
  | exhausted => rw [hs, hxs]; rfl

theorem parametersFrom_natural (fuel count : Nat) :
    Natural line k (List.map (Token.relined line)) (parametersFrom fuel count) (parametersFrom fuel count) := by
  induction fuel generalizing count with
  | zero => exact .exhausted
  | succ fuel ih =>
    have hname : Natural line k (Token.relined line) (expect Token.isIdentifier .parameterName)
        (expect Token.isIdentifier .parameterName) := .expect fun _ => rfl
    have hrest := hname.commas (ih (count + 1)) (fun _ => rfl) fun _ _ => rfl
    unfold parametersFrom
    split
    · exact .bind .current fun t => .bind (.report _ t) fun _ => hrest
    · exact hrest

theorem parameters_natural (fuel : Nat) :
    Natural line k (List.map (Token.relined line)) (parameters fuel) (parameters fuel) := by
  unfold parameters
  refine .bind (.next fun _ => rfl) fun closed => ?_
  cases closed with
  | true => exact .pure rfl
  | false => exact parametersFrom_natural fuel 0

theorem expressionUnless_natural {fuel : Nat} {p : Token → Bool} (hp : ∀ t : Token, p (t.relined line) = p t) :
    Natural line k (Option.map (Expr.relabel line (· + k))) (expressionUnless fuel p) (expressionUnless fuel p) := by
  unfold expressionUnless
  refine .bind (.next hp) fun found => ?_
  cases found with
  | true => exact .pure rfl
  | false => exact .map (exprNatural line k fuel).expression fun e => rfl

theorem varDeclaration_natural (fuel : Nat) :
    Natural line k (Stmt.relabel line (· + k)) (varDeclaration fuel) (varDeclaration fuel) := by
  unfold varDeclaration
  refine .bind (.expect fun _ => rfl) fun name => .bind (.accept fun _ => rfl) fun initialized => ?_
  cases initialized with
  | true =>
    refine .bind (exprNatural line k fuel).expression fun value => ?_
    exact .bind (.expect fun _ => rfl) fun semicolon => .pure rfl
  | false => exact .bind (.expect fun _ => rfl) fun semicolon => .pure rfl

theorem expressionStatement_natural (fuel : Nat) :
    Natural line k (Stmt.relabel line (· + k)) (expressionStatement fuel) (expressionStatement fuel) := by
  unfold expressionStatement
  refine .bind (exprNatural line k fuel).expression fun value => ?_
  exact .bind (.expect fun _ => rfl) fun semicolon => .pure rfl

theorem printStatement_natural (fuel : Nat) :
    Natural line k (Stmt.relabel line (· + k)) (printStatement fuel) (printStatement fuel) := by
  unfold printStatement
  refine .bind (exprNatural line k fuel).expression fun value => ?_
  exact .bind (.expect fun _ => rfl) fun semicolon => .pure rfl

theorem returnStatement_natural (fuel : Nat) (keyword : Token) :
    Natural line k (Stmt.relabel line (· + k)) (returnStatement fuel keyword)
      (returnStatement fuel (keyword.relined line)) := by
  unfold returnStatement
  refine .bind (expressionUnless_natural fun _ => rfl) fun value => ?_
  exact .bind (.expect fun _ => rfl) fun semicolon => .pure rfl

theorem breakStatement_natural (keyword : Token) :
    Natural line k (Stmt.relabel line (· + k)) (breakStatement keyword) (breakStatement (keyword.relined line)) := by
  unfold breakStatement
  exact .bind (.expect fun _ => rfl) fun semicolon => .pure rfl

theorem forInitializer_natural (fuel : Nat) :
    Natural line k (Option.map (Stmt.relabel line (· + k))) (forInitializer fuel) (forInitializer fuel) := by
  unfold forInitializer
  refine .bind (.accept fun _ => rfl) fun absent => ?_
  cases absent with
  | true => exact .pure rfl
  | false =>
    refine .bind (.accept fun _ => rfl) fun declared => ?_
    cases declared with
    | true => exact .map (varDeclaration_natural fuel) fun s => rfl
    | false => exact .map (expressionStatement_natural fuel) fun s => rfl

/-- The loop built from relabelled clauses is the relabelled loop. -/
theorem forLoop_relabel (initializer : Option Stmt) (condition increment : Option Expr) (body : Stmt)
    (id : OccurrenceId → OccurrenceId) :
    Stmt.forLoop (initializer.map (Stmt.relabel line id)) (condition.map (Expr.relabel line id))
        (increment.map (Expr.relabel line id)) (body.relabel line id) =
      (Stmt.forLoop initializer condition increment body).relabel line id := by
  cases initializer <;> cases condition <;> cases increment <;>
    simp [Stmt.forLoop, Stmt.relabel, Stmt.relabelAll, Expr.relabel]

/-- What all readers of statements do. -/
structure StmtNatural (line : Nat → Nat) (k fuel : Nat) : Prop where
  declarations : ∀ inBlock, Natural line k (Stmt.relabelAll line (· + k)) (declarations fuel inBlock)
    (declarations fuel inBlock)
  declaration : Natural line k (Stmt.relabel line (· + k)) (declaration fuel) (declaration fuel)
  classDeclaration : Natural line k (Stmt.relabel line (· + k)) (classDeclaration fuel) (classDeclaration fuel)
  methods : Natural line k (Function.relabelAll line (· + k)) (methods fuel) (methods fuel)
  function : ∀ callable, Natural line k (Function.relabel line (· + k)) (function fuel callable)
    (function fuel callable)
  block : Natural line k (Stmt.relabelAll line (· + k)) (block fuel) (block fuel)
  statement : Natural line k (Stmt.relabel line (· + k)) (statement fuel) (statement fuel)
  forStatement : Natural line k (Stmt.relabel line (· + k)) (forStatement fuel) (forStatement fuel)
  ifStatement : Natural line k (Stmt.relabel line (· + k)) (ifStatement fuel) (ifStatement fuel)
  whileStatement : Natural line k (Stmt.relabel line (· + k)) (whileStatement fuel) (whileStatement fuel)

/-- All readers of statements, by induction on fuel. -/
theorem stmtNatural (line : Nat → Nat) (k fuel : Nat) : StmtNatural line k fuel := by
  induction fuel with
  | zero => constructor <;> intros <;> exact .exhausted
  | succ fuel ih =>
    constructor
    case declarations =>
      intro inBlock
      unfold declarations
      refine .bind (.atEnd inBlock) fun ended => ?_
      cases ended with
      | true => exact .pure rfl
      | false =>
        refine .bind ih.declaration.recover fun first => .bind (ih.declarations inBlock) fun rest => .pure ?_
        rw [Stmt.relabelAll_append]
        cases first <;> rfl
    case declaration =>
      unfold declaration
      refine .bind (.accept fun _ => rfl) fun isClass => ?_
      cases isClass with
      | true => exact ih.classDeclaration
      | false =>
        refine .bind (.accept fun _ => rfl) fun isFunction => ?_
        cases isFunction with
        | true => exact .map (ih.function .function) fun f => rfl
        | false =>
          refine .bind (.accept fun _ => rfl) fun isVar => ?_
          cases isVar with
          | true => exact varDeclaration_natural fuel
          | false => exact ih.statement
    case classDeclaration =>
      unfold classDeclaration
      refine .bind (.expect fun _ => rfl) fun name => .bind (.expect fun _ => rfl) fun left => ?_
      refine .bind ih.methods fun declared => ?_
      exact .bind (.expect fun _ => rfl) fun right => .pure rfl
    case methods =>
      unfold methods
      refine .bind (.atEnd true) fun ended => ?_
      cases ended with
      | true => exact .pure rfl
      | false => exact .bind (ih.function .method) fun first => .bind ih.methods fun rest => .pure rfl
    case function =>
      intro callable
      unfold function
      refine .bind (.expect fun _ => rfl) fun name => .bind (.expect fun _ => rfl) fun left => ?_
      refine .bind (parameters_natural fuel) fun declared => ?_
      refine .bind (.expect fun _ => rfl) fun right => .bind (.expect fun _ => rfl) fun brace => ?_
      exact .bind ih.block fun body => .pure rfl
    case block =>
      unfold block
      refine .bind (ih.declarations true) fun body => ?_
      exact .bind (.expect fun _ => rfl) fun right => .pure rfl
    case statement =>
      unfold statement
      refine .bind (.accept fun _ => rfl) fun isFor => ?_
      cases isFor with
      | true => exact ih.forStatement
      | false =>
      refine .bind (.accept fun _ => rfl) fun isIf => ?_
      cases isIf with
      | true => exact ih.ifStatement
      | false =>
      refine .bind (.accept fun _ => rfl) fun isPrint => ?_
      cases isPrint with
      | true => exact printStatement_natural fuel
      | false =>
      refine .bind (.accept? fun _ => rfl) fun return_ => ?_
      cases return_ with
      | some keyword => exact returnStatement_natural fuel keyword
      | none =>
      refine .bind (.accept fun _ => rfl) fun isWhile => ?_
      cases isWhile with
      | true => exact ih.whileStatement
      | false =>
      refine .bind (.accept? fun _ => rfl) fun break_ => ?_
      cases break_ with
      | some keyword => exact breakStatement_natural keyword
      | none =>
      refine .bind (.accept fun _ => rfl) fun isBlock => ?_
      cases isBlock with
      | true => exact .map ih.block fun body => rfl
      | false => exact expressionStatement_natural fuel
    case forStatement =>
      unfold forStatement
      refine .bind (.expect fun _ => rfl) fun left => .bind (forInitializer_natural fuel) fun initializer => ?_
      refine .bind (expressionUnless_natural fun _ => rfl) fun condition => ?_
      refine .bind (.expect fun _ => rfl) fun semicolon => ?_
      refine .bind (expressionUnless_natural fun _ => rfl) fun increment => ?_
      refine .bind (.expect fun _ => rfl) fun right => .bind ih.statement fun body => .pure ?_
      exact forLoop_relabel initializer condition increment body _
    case ifStatement =>
      unfold ifStatement
      refine .bind (.expect fun _ => rfl) fun left => .bind (exprNatural line k fuel).expression fun condition => ?_
      refine .bind (.expect fun _ => rfl) fun right => .bind ih.statement fun yes => ?_
      refine .bind (.accept fun _ => rfl) fun hasElse => ?_
      cases hasElse with
      | true => exact .bind ih.statement fun no => .pure (by simp [Stmt.relabel])
      | false => exact .pure (by simp [Stmt.relabel])
    case whileStatement =>
      unfold whileStatement
      refine .bind (.expect fun _ => rfl) fun left => .bind (exprNatural line k fuel).expression fun condition => ?_
      exact .bind (.expect fun _ => rfl) fun right => .bind ih.statement fun body => .pure rfl

end Parse

end LoxLang
