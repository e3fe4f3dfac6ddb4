import LoxLang.Proofs.Grammar.Programs
import LoxLang.Proofs.Token.Respacing

namespace LoxLang

/-- A lexeme of one of these kinds. -/
def Token.Among (kinds : List Token.Kind) (t : Token) : Prop := t.kind ∈ kinds ∧ Lexeme t.lexeme.toList t.kind

namespace Grammar

def unaryKinds : List Token.Kind := [.mark .bang, .mark .minus]

def logicalKinds : List Token.Kind := [.keyword .or_, .keyword .and_]

def binaryKinds : List Token.Kind :=
  [.mark .bangEqual, .mark .equalEqual, .mark .greater, .mark .greaterEqual, .mark .less, .mark .lessEqual,
    .mark .minus, .mark .plus, .mark .slash, .mark .star]

end Grammar

open Grammar

def Literal.Genuine : Literal → Prop
  | number value => value.isNegative = false
  | _ => True

mutual

/-- Each token is a lexeme of a kind that belongs where it stands. -/
def Expr.Genuine : Expr → Prop
  | .literal value => value.Genuine
  | .group inner => inner.Genuine
  | .unary operator operand => operator.Among unaryKinds ∧ operand.Genuine
  | .binary left operator right => left.Genuine ∧ operator.Among binaryKinds ∧ right.Genuine
  | .logical left operator right => left.Genuine ∧ operator.Among logicalKinds ∧ right.Genuine
  | .ternary condition thenBranch elseBranch => condition.Genuine ∧ thenBranch.Genuine ∧ elseBranch.Genuine
  | .variable _ name => name.Among [.identifier]
  | .assign _ name value => name.Among [.identifier] ∧ value.Genuine
  | .this _ keyword => keyword.Among [.keyword .this_]
  | .call callee paren arguments =>
    callee.Genuine ∧ paren.Among [.mark .rightParen] ∧ Expr.GenuineAll arguments
  | .get object name => object.Genuine ∧ name.Among [.identifier]
  | .set object name value => object.Genuine ∧ name.Among [.identifier] ∧ value.Genuine

def Expr.GenuineAll : List Expr → Prop
  | [] => True
  | e :: es => e.Genuine ∧ Expr.GenuineAll es

end

mutual

def Stmt.Genuine : Stmt → Prop
  | .expression value => value.Genuine
  | .print value => value.Genuine
  | .var name initializer => name.Among [.identifier] ∧ ∀ e ∈ initializer, e.Genuine
  | .block body => Stmt.GenuineAll body
  | .branch condition thenBranch none => condition.Genuine ∧ thenBranch.Genuine
  | .branch condition thenBranch (some elseBranch) =>
    condition.Genuine ∧ thenBranch.Genuine ∧ elseBranch.Genuine
  | .loop condition body => condition.Genuine ∧ body.Genuine
  | .break keyword => keyword.Among [.keyword .break_]
  | .return keyword value => keyword.Among [.keyword .return_] ∧ ∀ e ∈ value, e.Genuine
  | .function declaration => declaration.Genuine
  | .class name methods => name.Among [.identifier] ∧ Function.GenuineAll methods

def Stmt.GenuineAll : List Stmt → Prop
  | [] => True
  | s :: ss => s.Genuine ∧ Stmt.GenuineAll ss

def Function.Genuine : Function → Prop
  | .mk name parameters body =>
    name.Among [.identifier] ∧ (∀ p ∈ parameters, p.Among [.identifier]) ∧ Stmt.GenuineAll body

def Function.GenuineAll : List Function → Prop
  | [] => True
  | f :: fs => f.Genuine ∧ Function.GenuineAll fs

end

/-- Of genuine statements each is genuine. -/
theorem Stmt.genuine_of_mem {s : Stmt} {ss : List Stmt} (h : Stmt.GenuineAll ss) (hs : s ∈ ss) : s.Genuine := by
  induction ss with
  | nil => cases hs
  | cons t ss ih =>
    obtain rfl | hs := List.mem_cons.mp hs
    · exact h.1
    · exact ih h.2 hs

namespace Parse

variable {α β : Type}

def State.Genuine (s : State) : Prop := ∀ t ∈ s.tokens, Lexeme t.lexeme.toList t.kind

/-- From lexemes the reader makes something of the kind told, and what it leaves are lexemes. -/
def Yields (P : α → Prop) (x : Parse α) : Prop :=
  ∀ s, s.Genuine → match x s with
    | .done a s' => P a ∧ s'.Genuine
    | .failed _ s' => s'.Genuine
    | .exhausted => True

namespace Yields

variable {P : α → Prop} {Q : β → Prop}

theorem pure {a : α} (h : P a) : Yields P (Pure.pure a) := fun _ hs => ⟨h, hs⟩

theorem exhausted : Yields P exhausted := fun _ _ => trivial

theorem fail (cause : SyntaxError.Cause) : Yields P (fail cause) := fun _ hs => hs

/-- What is read may be looked at less closely. -/
theorem imp {P' : α → Prop} {x : Parse α} (hx : Yields P x) (h : ∀ a, P a → P' a) : Yields P' x := by
  intro s hs
  have hxs := hx s hs
  cases hx : x s with
  | done a s' =>
    rw [hx] at hxs
    exact ⟨h a hxs.1, hxs.2⟩
  | failed e s' =>
    rw [hx] at hxs
    exact hxs
  | exhausted => trivial

/-- The second reader may rely on what the first has made. -/
theorem bind {x : Parse α} {f : α → Parse β} (hx : Yields P x) (hf : ∀ a, P a → Yields Q (f a)) :
    Yields Q (x >>= f) := by
  intro s hs
  have hxs := hx s hs
  cases h : x s with
  | done a s' =>
    rw [h] at hxs
    rw [bind_done h]
    exact hf a hxs.1 s' hxs.2
  | failed e s' =>
    rw [h] at hxs
    rw [bind_failed h]
    exact hxs
  | exhausted =>
    rw [bind_exhausted h]
    trivial

theorem map {x : Parse α} {f : α → β} (hx : Yields P x) (hf : ∀ a, P a → Q (f a)) : Yields Q (f <$> x) := by
  rw [← bind_pure_comp]
  exact .bind hx fun a ha => .pure (hf a ha)

/-- A reader that leaves the tokens alone. -/
theorem look {x : Parse α} (h : ∀ s, ∃ a s', x s = .done a s' ∧ s'.tokens = s.tokens) :
    Yields (fun _ => True) x := by
  intro s hs
  obtain ⟨a, s', hx, htokens⟩ := h s
  rw [hx]
  refine ⟨trivial, ?_⟩
  rw [State.Genuine, htokens]
  exact hs

theorem freshId : Yields (fun _ => True) freshId := .look fun _ => ⟨_, _, rfl, rfl⟩

theorem report (cause : SyntaxError.Cause) (t : Token) : Yields (fun _ => True) (report cause t) :=
  .look fun _ => ⟨_, _, rfl, rfl⟩

theorem current : Yields (fun _ => True) current := .look fun _ => ⟨_, _, rfl, rfl⟩

theorem next (p : Token → Bool) : Yields (fun _ => True) (next p) := .look fun _ => ⟨_, _, rfl, rfl⟩

theorem atEnd (inBraces : Bool) : Yields (fun _ => True) (atEnd inBraces) := .look fun _ => ⟨_, _, rfl, rfl⟩

/-- What is taken comes from a lexeme. -/
theorem take? (f : Token → Option α) :
    Yields (fun o => ∀ a ∈ o, ∃ t : Token, Lexeme t.lexeme.toList t.kind ∧ f t = some a) (take? f) := by
  intro s hs
  obtain ⟨t, rest, a, htokens, hf, hx⟩ | hx := take?_cases f s
  · rw [hx]
    refine ⟨fun b hb => ?_, fun u hu => hs u (by simp [htokens, hu])⟩
    cases hb
    exact ⟨t, hs t (by simp [htokens]), hf⟩
  · rw [hx]
    exact ⟨by simp, hs⟩

/-- A token that is accepted is a lexeme of a kind asked for. -/
theorem accept? {p : Token → Bool} (kinds : List Token.Kind) (hp : ∀ t, p t = true → t.kind ∈ kinds) :
    Yields (fun o => ∀ t ∈ o, t.Among kinds) (accept? p) := by
  refine (take? _).imp fun o ho t ht => ?_
  obtain ⟨u, hu, hpu⟩ := ho t ht
  split at hpu
  · next h =>
    cases hpu
    exact ⟨hp t h, hu⟩
  · cases hpu

theorem accept (p : Token → Bool) : Yields (fun _ => True) (accept p) := by
  refine .bind (.take? _) fun _ _ => .pure trivial

/-- A token that had to come is a lexeme of a kind asked for. -/
theorem expect {p : Token → Bool} {cause : SyntaxError.Cause} (kinds : List Token.Kind)
    (hp : ∀ t, p t = true → t.kind ∈ kinds) : Yields (Token.Among kinds) (expect p cause) := by
  refine .bind (.accept? kinds hp) fun t ht => ?_
  cases t with
  | none => exact .fail cause
  | some t => exact .pure (ht t rfl)

/-- A token that the tree does not keep. -/
theorem drop (p : Token → Bool) (cause : SyntaxError.Cause) : Yields (fun _ => True) (Parse.expect p cause) := by
  refine .bind (.take? _) fun t _ => ?_
  cases t with
  | none => exact .fail cause
  | some t => exact .pure trivial

theorem name (cause : SyntaxError.Cause) :
    Yields (Token.Among [.identifier]) (Parse.expect Token.isIdentifier cause) :=
  .expect _ fun t h => by simpa using h

/-- Lists with commas between their items. -/
theorem commas {item : Parse α} {others : Parse (List α)} {Ps : List α → Prop} (hitem : Yields P item)
    (hothers : Yields Ps others) (hone : ∀ a, P a → Ps [a]) (hcons : ∀ a as, P a → Ps as → Ps (a :: as)) :
    Yields Ps (commas item others) := by
  refine .bind hitem fun first hfirst => .bind (.accept _) fun more _ => ?_
  cases more with
  | true => exact .bind hothers fun rest hrest => .pure (hcons first rest hfirst hrest)
  | false => exact .pure (hone first hfirst)

end Yields

/-- What all readers of expressions yield. -/
structure ExprYields (fuel : Nat) : Prop where
  expression : Yields Expr.Genuine (expression fuel)
  ternary : Yields Expr.Genuine (ternary fuel)
  binary : ∀ l, Yields Expr.Genuine (binary fuel l)
  operand : ∀ l, Yields Expr.Genuine (operand fuel l)
  chain : ∀ l left, left.Genuine → Yields Expr.Genuine (chain fuel l left)
  unary : Yields Expr.Genuine (unary fuel)
  suffixes : ∀ callee, callee.Genuine → Yields Expr.Genuine (suffixes fuel callee)
  arguments : Yields Expr.GenuineAll (arguments fuel)
  argumentsFrom : ∀ count, Yields Expr.GenuineAll (argumentsFrom fuel count)
  primary : Yields Expr.Genuine (primary fuel)

/-- Only a name that has been read can become the target of an assignment. -/
theorem assignment_yields {target value : Expr} (equals : Token) (ht : target.Genuine) (hv : value.Genuine) :
    Yields Expr.Genuine (assignment target equals value) := by
  unfold assignment
  cases target with
  | «variable» i name => exact .bind .freshId fun _ _ => .pure ⟨ht, hv⟩
  | get object name => exact .pure ⟨ht.1, ht.2, hv⟩
  | _ => exact .bind (.report _ equals) fun _ _ => .pure ht

/-- An operator of a level makes an expression of its two sides. -/
theorem join_genuine {l : Level} {left right : Expr} {operator : Token} (hl : left.Genuine)
    (ho : operator.Among l.kinds) (hr : right.Genuine) : (l.join left operator right).Genuine := by
  obtain ⟨hkind, hlexeme⟩ := ho
  have hwider : ∀ {kinds}, l.kinds ⊆ kinds → operator.Among kinds := fun h => ⟨h hkind, hlexeme⟩
  cases l with
  | or | and => exact ⟨hl, hwider (by decide), hr⟩
  | equality | comparison | term | factor => exact ⟨hl, hwider (by decide), hr⟩

/-- A literal that is a number comes from digits, so it is without a sign. -/
theorem literal?_genuine {t : Token} {value : Literal} (ht : Lexeme t.lexeme.toList t.kind)
    (h : literal? t = some value) : value.Genuine := by
  unfold literal? at h
  split at h
  · cases h; trivial
  · cases h; trivial
  · cases h; trivial
  · next x hk =>
    cases h
    rw [hk] at ht
    generalize t.lexeme.toList = text at ht
    cases ht with
    | whole _ _ hx => exact hx.1
    | fraction _ _ _ _ hx => exact hx.1
  · cases h; trivial
  · cases h

/-- All readers of expressions, by induction on fuel. -/
theorem exprYields (fuel : Nat) : ExprYields fuel := by
  induction fuel with
  | zero => constructor <;> intros <;> exact .exhausted
  | succ fuel ih =>
    constructor
    case expression =>
      unfold expression
      refine .bind ih.ternary fun target ht => .bind (.take? _) fun equals _ => ?_
      cases equals with
      | none => exact .pure ht
      | some equals => exact .bind ih.expression fun value hv => assignment_yields equals ht hv
    case ternary =>
      unfold ternary
      refine .bind (ih.binary .or) fun condition hc => .bind (.accept _) fun asked _ => ?_
      cases asked with
      | false => exact .pure hc
      | true =>
        refine .bind ih.ternary fun yes hy => .bind (.drop _ _) fun colon _ => ?_
        exact .bind ih.ternary fun no hn => .pure ⟨hc, hy, hn⟩
    case binary =>
      intro l
      unfold binary
      exact .bind (ih.operand l) fun left hl => ih.chain l left hl
    case operand =>
      intro l
      unfold operand
      cases l.tighter? with
      | none => exact ih.unary
      | some tighter => exact ih.binary tighter
    case chain =>
      intro l left hl
      unfold chain
      have hkinds : ∀ t, l.isOperator t = true → t.kind ∈ l.kinds := fun t h => by simpa [Level.isOperator] using h
      refine .bind (.accept? _ hkinds) fun operator ho => ?_
      cases operator with
      | none => exact .pure hl
      | some operator => exact .bind (ih.operand l) fun right hr => ih.chain l _ (join_genuine hl (ho _ rfl) hr)
    case unary =>
      unfold unary
      have hkinds : ∀ t, isUnaryOperator t = true → t.kind ∈ unaryKinds := fun t h => by
        simpa [isUnaryOperator, unaryKinds] using h
      refine .bind (.accept? _ hkinds) fun operator ho => ?_
      cases operator with
      | none => exact .bind ih.primary fun callee hc => ih.suffixes callee hc
      | some operator => exact .bind ih.unary fun right hr => .pure ⟨ho _ rfl, hr⟩
    case suffixes =>
      intro callee hc
      unfold suffixes
      refine .bind (.accept _) fun called _ => ?_
      cases called with
      | true =>
        have hparen : ∀ t : Token, t.isMark .rightParen = true → t.kind ∈ [.mark .rightParen] := by simp
        refine .bind ih.arguments fun given hg => .bind (.expect _ hparen) fun paren hp => ?_
        exact ih.suffixes (.call callee paren given) ⟨hc, hp, hg⟩
      | false =>
        refine .bind (.accept _) fun dotted _ => ?_
        cases dotted with
        | true => exact .bind (.name _) fun name hn => ih.suffixes (.get callee name) ⟨hc, hn⟩
        | false => exact .pure hc
    case arguments =>
      unfold arguments
      refine .bind (.next _) fun closed _ => ?_
      cases closed with
      | true => exact .pure trivial
      | false => exact ih.argumentsFrom 0
    case argumentsFrom =>
      intro count
      have hrest := ih.expression.commas (ih.argumentsFrom (count + 1)) (fun _ h => ⟨h, trivial⟩)
        fun _ _ h hs => ⟨h, hs⟩
      unfold argumentsFrom
      split
      · exact .bind .current fun t _ => .bind (.report _ t) fun _ _ => hrest
      · exact hrest
    case primary =>
      unfold primary
      refine .bind (.take? literal?) fun value hvalue => ?_
      cases value with
      | some value =>
        obtain ⟨t, ht, hl⟩ := hvalue value rfl
        exact .pure (literal?_genuine ht hl)
      | none =>
        refine .bind (.accept? [.keyword .this_] (by simp)) fun keyword hk => ?_
        cases keyword with
        | some keyword => exact .bind .freshId fun _ _ => .pure (hk _ rfl)
        | none =>
          refine .bind (.accept? [.identifier] (by simp)) fun name hn => ?_
          cases name with
          | some name => exact .bind .freshId fun _ _ => .pure (hn _ rfl)
          | none =>
            refine .bind (.accept _) fun grouped _ => ?_
            cases grouped with
            | true => exact .bind ih.expression fun inner hi => .bind (.drop _ _) fun paren _ => .pure hi
            | false => exact .fail _

/-- What is skipped is gone, and nothing is added. -/
theorem resume_subset (ts : List Token) : resume ts ⊆ ts := by
  induction ts with
  | nil => exact List.nil_subset _
  | cons t rest ih =>
    unfold resume
    split
    · exact List.subset_cons_self t rest
    · exact List.subset_cons_of_subset t ih

/-- A declaration that departs from the grammar leaves nothing behind. -/
theorem Yields.recover {P : Stmt → Prop} {x : Parse Stmt} (hx : Yields P x) :
    Yields (fun o => ∀ s ∈ o, P s) (recover x) := by
  intro s hs
  have hxs := hx s hs
  unfold Parse.recover
  cases h : x s with
  | done a s' =>
    rw [h] at hxs
    exact ⟨by simpa using hxs.1, hxs.2⟩
  | failed e s' =>
    rw [h] at hxs
    exact ⟨by simp, fun t ht => hxs t (resume_subset _ ht)⟩
  | exhausted => trivial

theorem parametersFrom_yields (fuel count : Nat) :
    Yields (fun ps => ∀ p ∈ ps, p.Among [.identifier]) (parametersFrom fuel count) := by
  induction fuel generalizing count with
  | zero => exact .exhausted
  | succ fuel ih =>
    have hrest := (Yields.name .parameterName).commas (ih (count + 1)) (by simp) (by simp +contextual)
    unfold parametersFrom
    split
    · exact .bind .current fun t _ => .bind (.report _ t) fun _ _ => hrest
    · exact hrest

theorem parameters_yields (fuel : Nat) :
    Yields (fun ps => ∀ p ∈ ps, p.Among [.identifier]) (parameters fuel) := by
  refine .bind (.next _) fun closed _ => ?_
  cases closed with
  | true => exact .pure (by simp)
  | false => exact parametersFrom_yields fuel 0

theorem expressionUnless_yields (fuel : Nat) (p : Token → Bool) :
    Yields (fun o => ∀ e ∈ o, e.Genuine) (expressionUnless fuel p) := by
  refine .bind (.next p) fun found _ => ?_
  cases found with
  | true => exact .pure (by simp)
  | false => exact .map (exprYields fuel).expression (by simp)

theorem varDeclaration_yields (fuel : Nat) : Yields Stmt.Genuine (varDeclaration fuel) := by
  refine .bind (.name _) fun name hn => .bind (.accept _) fun initialized _ => ?_
  cases initialized with
  | true =>
    refine .bind (exprYields fuel).expression fun value hv => .bind (.drop _ _) fun _ _ => .pure ⟨hn, ?_⟩
    simpa using hv
  | false => exact .bind (.drop _ _) fun _ _ => .pure ⟨hn, by simp⟩

theorem expressionStatement_yields (fuel : Nat) : Yields Stmt.Genuine (expressionStatement fuel) :=
  .bind (exprYields fuel).expression fun _ hv => .bind (.drop _ _) fun _ _ => .pure hv

theorem printStatement_yields (fuel : Nat) : Yields Stmt.Genuine (printStatement fuel) :=
  .bind (exprYields fuel).expression fun _ hv => .bind (.drop _ _) fun _ _ => .pure hv

theorem returnStatement_yields (fuel : Nat) {keyword : Token} (hk : keyword.Among [.keyword .return_]) :
    Yields Stmt.Genuine (returnStatement fuel keyword) :=
  .bind (expressionUnless_yields fuel _) fun _ hv => .bind (.drop _ _) fun _ _ => .pure ⟨hk, hv⟩

theorem breakStatement_yields {keyword : Token} (hk : keyword.Among [.keyword .break_]) :
    Yields Stmt.Genuine (breakStatement keyword) :=
  .bind (.drop _ _) fun _ _ => .pure hk

theorem forInitializer_yields (fuel : Nat) : Yields (fun o => ∀ s ∈ o, s.Genuine) (forInitializer fuel) := by
  refine .bind (.accept _) fun missing _ => ?_
  cases missing with
  | true => exact .pure (by simp)
  | false =>
    refine .bind (.accept _) fun declared _ => ?_
    cases declared with
    | true => exact .map (varDeclaration_yields fuel) (by simp)
    | false => exact .map (expressionStatement_yields fuel) (by simp)

/-- The loop built from genuine clauses. The literal that stands for a missing condition is genuine too. -/
theorem forLoop_genuine {initializer : Option Stmt} {condition increment : Option Expr} {body : Stmt}
    (hi : ∀ s ∈ initializer, s.Genuine) (hc : ∀ e ∈ condition, e.Genuine) (hincrement : ∀ e ∈ increment, e.Genuine)
    (hb : body.Genuine) : (Stmt.forLoop initializer condition increment body).Genuine := by
  have hcondition : (condition.getD (.literal (.bool true))).Genuine := by
    cases condition with
    | none => trivial
    | some e => exact hc e rfl
  unfold Stmt.forLoop
  cases initializer <;> cases increment <;>
    simp_all [Stmt.Genuine, Stmt.GenuineAll]

/-- What all readers of statements yield. -/
structure StmtYields (fuel : Nat) : Prop where
  declarations : ∀ inBlock, Yields Stmt.GenuineAll (declarations fuel inBlock)
  declaration : Yields Stmt.Genuine (declaration fuel)
  classDeclaration : Yields Stmt.Genuine (classDeclaration fuel)
  methods : Yields Function.GenuineAll (methods fuel)
  function : ∀ callable, Yields Function.Genuine (function fuel callable)
  block : Yields Stmt.GenuineAll (block fuel)
  statement : Yields Stmt.Genuine (statement fuel)
  forStatement : Yields Stmt.Genuine (forStatement fuel)
  ifStatement : Yields Stmt.Genuine (ifStatement fuel)
  whileStatement : Yields Stmt.Genuine (whileStatement fuel)

/-- All readers of statements, by induction on fuel. -/
theorem stmtYields (fuel : Nat) : StmtYields fuel := by
  induction fuel with
  | zero => constructor <;> intros <;> exact .exhausted
  | succ fuel ih =>
    constructor
    case declarations =>
      intro inBlock
      unfold declarations
      refine .bind (.atEnd inBlock) fun closed _ => ?_
      cases closed with
      | true => exact .pure trivial
      | false =>
        refine .bind (.recover ih.declaration) fun first hf => .bind (ih.declarations inBlock) fun rest hr => .pure ?_
        cases first with
        | none => exact hr
        | some s => exact ⟨hf s rfl, hr⟩
    case declaration =>
      unfold declaration
      refine .bind (.accept _) fun found _ => ?_
      cases found with
      | true => exact ih.classDeclaration
      | false =>
        refine .bind (.accept _) fun found _ => ?_
        cases found with
        | true => exact .map (ih.function .function) fun _ h => h
        | false =>
          refine .bind (.accept _) fun found _ => ?_
          cases found with
          | true => exact varDeclaration_yields fuel
          | false => exact ih.statement
    case classDeclaration =>
      unfold classDeclaration
      refine .bind (.name _) fun name hn => .bind (.drop _ _) fun left _ => ?_
      exact .bind ih.methods fun declared hd => .bind (.drop _ _) fun right _ => .pure ⟨hn, hd⟩
    case methods =>
      unfold methods
      refine .bind (.atEnd true) fun closed _ => ?_
      cases closed with
      | true => exact .pure trivial
      | false => exact .bind (ih.function .method) fun first hf => .bind ih.methods fun rest hr => .pure ⟨hf, hr⟩
    case function =>
      intro callable
      unfold function
      refine .bind (.name _) fun name hn => .bind (.drop _ _) fun left _ => ?_
      refine .bind (parameters_yields fuel) fun declared hd => .bind (.drop _ _) fun right _ => ?_
      exact .bind (.drop _ _) fun brace _ => .bind ih.block fun body hb => .pure ⟨hn, hd, hb⟩
    case block =>
      unfold block
      exact .bind (ih.declarations true) fun body hb => .bind (.drop _ _) fun right _ => .pure hb
    case statement =>
      unfold statement
      refine .bind (.accept _) fun found _ => ?_
      cases found with
      | true => exact ih.forStatement
      | false =>
        refine .bind (.accept _) fun found _ => ?_
        cases found with
        | true => exact ih.ifStatement
        | false =>
          refine .bind (.accept _) fun found _ => ?_
          cases found with
          | true => exact printStatement_yields fuel
          | false =>
            refine .bind (.accept? [.keyword .return_] (by simp)) fun keyword hk => ?_
            cases keyword with
            | some keyword => exact returnStatement_yields fuel (hk keyword rfl)
            | none =>
              refine .bind (.accept _) fun found _ => ?_
              cases found with
              | true => exact ih.whileStatement
              | false =>
                refine .bind (.accept? [.keyword .break_] (by simp)) fun keyword hk => ?_
                cases keyword with
                | some keyword => exact breakStatement_yields (hk keyword rfl)
                | none =>
                  refine .bind (.accept _) fun found _ => ?_
                  cases found with
                  | true => exact .map ih.block fun _ h => h
                  | false => exact expressionStatement_yields fuel
    case forStatement =>
      unfold forStatement
      refine .bind (.drop _ _) fun left _ => .bind (forInitializer_yields fuel) fun initializer hi => ?_
      refine .bind (expressionUnless_yields fuel _) fun condition hc => .bind (.drop _ _) fun semicolon _ => ?_
      refine .bind (expressionUnless_yields fuel _) fun increment hn => .bind (.drop _ _) fun right _ => ?_
      exact .bind ih.statement fun body hb => .pure (forLoop_genuine hi hc hn hb)
    case ifStatement =>
      unfold ifStatement
      refine .bind (.drop _ _) fun left _ => .bind (exprYields fuel).expression fun condition hc => ?_
      refine .bind (.drop _ _) fun right _ => .bind ih.statement fun yes hy => .bind (.accept _) fun otherwise _ => ?_
      cases otherwise with
      | true => exact .bind ih.statement fun no hn => .pure ⟨hc, hy, hn⟩
      | false => exact .pure ⟨hc, hy⟩
    case whileStatement =>
      unfold whileStatement
      refine .bind (.drop _ _) fun left _ => .bind (exprYields fuel).expression fun condition hc => ?_
      exact .bind (.drop _ _) fun right _ => .bind ih.statement fun body hb => .pure ⟨hc, hb⟩

/-- In what is read from a source, with errors or without, each token is a lexeme that belongs where it stands. -/
theorem ofTokens_genuine (source : String) (n : OccurrenceId) :
    Stmt.GenuineAll (Parsed.ofTokens (Token.ofSource source) n).statements := by
  obtain ⟨ss, s, hd, ho⟩ := ofTokens_done (Token.ofSource source) n
  have hstart : (start (Token.ofSource source) n).Genuine := by
    intro t ht
    have htokens : t ∈ Source.tokens source := by rwa [Source.tokens, ← splitAtFinish_fst]
    exact Source.tokens_lexeme htokens
  have hyields := (stmtYields (Parsed.fuelFor (start (Token.ofSource source) n).tokens)).declarations false _ hstart
  rw [hd] at hyields
  rw [ho]
  exact hyields.1

end Parse

end LoxLang
