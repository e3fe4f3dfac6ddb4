import LoxLang.Proofs.Grammar.Readers
import LoxLang.Proofs.Grammar.Trees

namespace LoxLang

@[simp]
theorem Token.isMark_iff {m : Mark} {t : Token} : t.isMark m = true ↔ t.kind = .mark m := by
  simp [Token.isMark]

@[simp]
theorem Token.isKeyword_iff {k : Keyword} {t : Token} : t.isKeyword k = true ↔ t.kind = .keyword k := by
  simp [Token.isKeyword]

@[simp]
theorem Token.isIdentifier_iff {t : Token} : t.isIdentifier = true ↔ t.kind = .identifier := by
  simp [Token.isIdentifier]

namespace Parse
open Grammar

variable {α β : Type}

/-- Success without errors: the tokens consumed, those left and the answer are as told. -/
def Accepts (x : Parse α) (φ : (consumed rest : List Token) → α → Prop) : Prop :=
  ∀ s a s', x s = .done a s' → s'.errors = #[] →
    s.errors = #[] ∧ ∃ w, s.tokens = w ++ s'.tokens ∧ φ w s'.tokens a

namespace Accepts

/-- Less may be claimed of what is read. -/
theorem mono {x : Parse α} {φ ψ : List Token → List Token → α → Prop} (h : Accepts x φ)
    (hi : ∀ w rest a, φ w rest a → ψ w rest a) : Accepts x ψ := by
  intro s a s' hx he
  obtain ⟨hs, w, hw, ha⟩ := h s a s' hx he
  exact ⟨hs, w, hw, hi _ _ _ ha⟩

theorem pure {a : α} {φ : List Token → List Token → α → Prop} (h : ∀ rest, φ [] rest a) :
    Accepts (pure a) φ := by
  intro s b s' hx he
  cases hx
  exact ⟨he, [], rfl, h _⟩

/-- Nothing is claimed of a failure. -/
theorem fail {cause : SyntaxError.Cause} {φ : List Token → List Token → α → Prop} :
    Accepts (fail cause) φ := by
  intro s a s' hx
  cases hx

/-- What is known of the first reader is a premise of what is to be shown of the second: the second has to be
looked at before the first, because only its end tells that no error was there to begin with. -/
theorem bindRest {x : Parse α} {f : α → Parse β} {φ : List Token → List Token → α → Prop}
    {ψ : List Token → List Token → β → Prop} (hx : Accepts x φ)
    (hf : ∀ a v, Accepts (f a) fun w rest b => φ v (w ++ rest) a → ψ (v ++ w) rest b) :
    Accepts (x >>= f) ψ := by
  intro s b s'' h he
  obtain ⟨a, s', hxs, hfs⟩ := bind_eq_done h
  obtain ⟨hs', _⟩ := hf a [] s' b s'' hfs he
  obtain ⟨hs, v, hv, ha⟩ := hx s a s' hxs hs'
  obtain ⟨_, w, hw, hb⟩ := hf a v s' b s'' hfs he
  rw [hw] at hv ha
  exact ⟨hs, v ++ w, by rw [hv, List.append_assoc], hb ha⟩

theorem bind {x : Parse α} {f : α → Parse β} {φ : List Token → α → Prop}
    {ψ : List Token → List Token → β → Prop} (hx : Accepts x fun w _ a => φ w a)
    (hf : ∀ a v, Accepts (f a) fun w rest b => φ v a → ψ (v ++ w) rest b) : Accepts (x >>= f) ψ :=
  .bindRest hx hf

/-- A step that leaves the tokens alone and takes no error away. -/
theorem look {x : Parse α} {f : α → Parse β} {ψ : List Token → List Token → β → Prop}
    (hx : ∀ s, ∃ a s', x s = .done a s' ∧ s'.tokens = s.tokens ∧ (s'.errors = #[] → s.errors = #[]))
    (hf : ∀ a, Accepts (f a) ψ) : Accepts (x >>= f) ψ := by
  intro s b s'' h he
  obtain ⟨a, s', hxs, ht, hs⟩ := hx s
  rw [bind_done hxs] at h
  obtain ⟨hs', w, hw, hb⟩ := hf a s' b s'' h he
  exact ⟨hs hs', w, ht ▸ hw, hb⟩

theorem next {f : Bool → Parse β} {p : Token → Bool} {ψ : List Token → List Token → β → Prop}
    (hf : ∀ b, Accepts (f b) ψ) : Accepts (next p >>= f) ψ :=
  .look (fun s => ⟨_, s, rfl, rfl, id⟩) hf

theorem freshId {f : OccurrenceId → Parse β} {ψ : List Token → List Token → β → Prop}
    (hf : ∀ id, Accepts (f id) ψ) : Accepts (freshId >>= f) ψ :=
  .look (fun s => ⟨s.nextId, { s with nextId := s.nextId + 1 }, rfl, rfl, id⟩) hf

theorem current {f : Token → Parse β} {ψ : List Token → List Token → β → Prop}
    (hf : ∀ t, Accepts (f t) ψ) : Accepts (current >>= f) ψ :=
  .look (fun s => ⟨s.current, s, rfl, rfl, id⟩) hf

/-- After a report the run does not end without errors, whatever is read next. -/
theorem report {f : Unit → Parse β} {cause : SyntaxError.Cause} {t : Token}
    {φ ψ : List Token → List Token → β → Prop} (hf : Accepts (f ()) φ) :
    Accepts (report cause t >>= f) ψ := by
  intro s b s'' h he
  obtain ⟨hs, _⟩ := hf { s with errors := s.errors.push ⟨cause, t⟩ } b s'' h he
  exact absurd hs (by simp)

/-- Either a token is taken and leads the tokens consumed, or nothing could be made of the next one. -/
theorem take? {g : Token → Option α} {f : Option α → Parse β} {ψ : List Token → List Token → β → Prop}
    (hsome : ∀ a t, g t = some a → Accepts (f (some a)) fun w rest b => ψ (t :: w) rest b)
    (hnone : Accepts (f none) fun w rest b => (∀ t ∈ (w ++ rest).head?, g t = none) → ψ w rest b) :
    Accepts (Parse.take? g >>= f) ψ := by
  intro s b s'' h he
  cases ht : s.tokens with
  | nil =>
    rw [bind_done (take?_nil ht)] at h
    obtain ⟨hs, w, hw, hb⟩ := hnone s b s'' h he
    rw [ht] at hw
    exact ⟨hs, w, hw, hb (by simp [← hw])⟩
  | cons t rest =>
    cases hg : g t with
    | some a =>
      rw [bind_done (take?_some ht hg)] at h
      obtain ⟨hs, w, hw, hb⟩ := hsome a t hg _ b s'' h he
      exact ⟨hs, t :: w, by rw [List.cons_append, ← hw], hb⟩
    | none =>
      have hall : ∀ u ∈ s.tokens.head?, g u = none := by simp [ht, hg]
      rw [bind_done (take?_none hall)] at h
      obtain ⟨hs, w, hw, hb⟩ := hnone s b s'' h he
      exact ⟨hs, w, ht ▸ hw, hb (hw ▸ hall)⟩

theorem accept? {p : Token → Bool} {f : Option Token → Parse β}
    {ψ : List Token → List Token → β → Prop}
    (hsome : ∀ t, p t = true → Accepts (f (some t)) fun w rest b => ψ (t :: w) rest b)
    (hnone : Accepts (f none) fun w rest b => (∀ t ∈ (w ++ rest).head?, p t = false) → ψ w rest b) :
    Accepts (Parse.accept? p >>= f) ψ := by
  refine .take? (fun a t h => ?_) (hnone.mono fun w rest b hb h => hb fun t ht => ?_)
  · split at h
    · next hp => cases h; exact hsome _ hp
    · cases h
  · simpa using h t ht

theorem accept {p : Token → Bool} {f : Bool → Parse β} {ψ : List Token → List Token → β → Prop}
    (htrue : ∀ t, p t = true → Accepts (f true) fun w rest b => ψ (t :: w) rest b)
    (hfalse : Accepts (f false) fun w rest b => (∀ t ∈ (w ++ rest).head?, p t = false) → ψ w rest b) :
    Accepts (accept p >>= f) ψ := by
  rw [accept_bind]
  exact .accept? htrue hfalse

/-- The token that has to come leads the tokens consumed. -/
theorem expect {p : Token → Bool} {cause : SyntaxError.Cause} {f : Token → Parse β}
    {ψ : List Token → List Token → β → Prop}
    (hf : ∀ t, p t = true → Accepts (f t) fun w rest b => ψ (t :: w) rest b) :
    Accepts (expect p cause >>= f) ψ := by
  rw [expect_bind]
  exact .accept? hf .fail

/-- Outside of braces reading stops only where nothing is left. -/
theorem atEnd {inBraces : Bool} {f : Bool → Parse β} {ψ : List Token → List Token → β → Prop}
    (htrue : Accepts (f true) fun w rest b => (inBraces = false → w ++ rest = []) → ψ w rest b)
    (hfalse : Accepts (f false) ψ) : Accepts (atEnd inBraces >>= f) ψ := by
  intro s b s'' h he
  rw [bind_done (rfl : Parse.atEnd inBraces s = .done _ s)] at h
  cases hend : s.tokens.isEmpty || inBraces && s.tokens.head?.any (·.isMark .rightBrace) with
  | false => rw [hend] at h; exact hfalse s b s'' h he
  | true =>
    rw [hend] at h
    obtain ⟨hs, w, hw, hb⟩ := htrue s b s'' h he
    refine ⟨hs, w, hw, hb fun hin => ?_⟩
    simpa [hin, hw] using hend

/-- A reader that had to recover left an error behind. -/
theorem recover {x : Parse Stmt} {φ : List Token → List Token → Stmt → Prop} (hx : Accepts x φ) :
    Accepts (recover x) fun w rest a => ∃ s, a = some s ∧ φ w rest s := by
  intro s a s' h he
  unfold Parse.recover at h
  split at h
  · next stmt s'' hxs =>
    cases h
    obtain ⟨hs, w, hw, ha⟩ := hx s stmt s' hxs he
    exact ⟨hs, w, hw, stmt, rfl, ha⟩
  · cases h
    simp at he
  · cases h

theorem map {x : Parse α} {f : α → β} {φ : List Token → α → Prop}
    {ψ : List Token → List Token → β → Prop} (hx : Accepts x fun w _ a => φ w a)
    (hf : ∀ w rest a, φ w a → ψ w rest (f a)) : Accepts (f <$> x) ψ := by
  rw [← bind_pure_comp]
  exact .bind hx fun a v => .pure fun rest h => by simpa using hf v rest a h

end Accepts

/-- An expression that is a name, and no more, was read from just that: parentheses around it would show in the tree. -/
theorem reads_variable {r : ExprRule} {w : List Token} {e : Expr} {id : OccurrenceId} {name : Token} :
    ReadsExpr r w e → e = .variable id name → w = [name] ∧ name.kind = .identifier
  | .assignmentTernary h, he | .ternaryBinary h, he | .binaryOperand h, he | .operandBinary _ h, he
  | .operandUnary _ h, he | .unaryCall h, he | .callPrimary h, he => reads_variable h he
  | .variable hk, he => by cases he; exact ⟨rfl, hk⟩
  | .binary (l := l) .., he => by cases l <;> cases he
  | .assignVariable .., he | .assignProperty .., he | .ternary .., he | .unary .., he | .call .., he
  | .get .., he | .literal _, he | .this _, he | .group .., he => by cases he

/-- An expression that is a property was read from its object, a dot and the name. -/
theorem reads_get {r : ExprRule} {w : List Token} {e object : Expr} {name : Token} :
    ReadsExpr r w e → e = .get object name →
    ∃ u dot, w = u ++ [dot, name] ∧ ReadsExpr .call u object ∧ dot.kind = .mark .dot ∧
      name.kind = .identifier
  | .assignmentTernary h, he | .ternaryBinary h, he | .binaryOperand h, he | .operandBinary _ h, he
  | .operandUnary _ h, he | .unaryCall h, he | .callPrimary h, he => reads_get h he
  | .get h hd hn, he => by cases he; exact ⟨_, _, rfl, h, hd, hn⟩
  | .binary (l := l) .., he => by cases l <;> cases he
  | .assignVariable .., he | .assignProperty .., he | .ternary .., he | .unary .., he | .call .., he
  | .variable _, he | .literal _, he | .this _, he | .group .., he => by cases he

/-- What a reader of expressions consumes without an error reads as its answer. Readers that go on from an
expression in hand extend the tokens it was read from. -/
structure ExprAccepts (fuel : Nat) : Prop where
  expression : Accepts (expression fuel) fun w _ e => ReadsExpr .assignment w e
  ternary : Accepts (ternary fuel) fun w _ e => ReadsExpr .ternary w e
  binary : ∀ l, Accepts (binary fuel l) fun w _ e => ReadsExpr (.binary l) w e
  operand : ∀ l, Accepts (operand fuel l) fun w _ e => ReadsExpr (.operand l) w e
  chain : ∀ l left, Accepts (chain fuel l left) fun w _ e =>
    ∀ v, ReadsExpr (.binary l) v left → ReadsExpr (.binary l) (v ++ w) e
  unary : Accepts (unary fuel) fun w _ e => ReadsExpr .unary w e
  suffixes : ∀ callee, Accepts (suffixes fuel callee) fun w _ e =>
    ∀ v, ReadsExpr .call v callee → ReadsExpr .call (v ++ w) e
  arguments : Accepts (arguments fuel) fun w _ es => ReadsArguments w es
  argumentsFrom : ∀ count, Accepts (argumentsFrom fuel count) fun w _ es =>
    ReadsSomeArguments w es ∧ count + es.length ≤ maxArity
  primary : Accepts (primary fuel) fun w _ e => ReadsExpr .primary w e

/-- The left side of an assignment is known only as a tree when the equals sign comes. -/
theorem assignment_accepts {target value : Expr} {equals : Token} {v w : List Token}
    (he : equals.kind = .mark .equal) :
    Accepts (assignment target equals value) fun u _ e =>
      ReadsExpr .assignment w value → ReadsExpr .ternary v target →
      ReadsExpr .assignment (v ++ equals :: (w ++ u)) e := by
  unfold assignment
  split
  · refine .freshId fun id => .pure fun rest hv ht => ?_
    obtain ⟨rfl, hn⟩ := reads_variable ht rfl
    simpa using ReadsExpr.assignVariable hn he hv
  · refine .pure fun rest hv ht => ?_
    obtain ⟨u, dot, rfl, ho, hd, hn⟩ := reads_get ht rfl
    simpa using ReadsExpr.assignProperty ho hd hn he hv
  · exact .report (φ := fun _ _ _ => True) (.pure fun _ => trivial)

/-- All readers of expressions, by induction on fuel. -/
theorem exprAccepts (fuel : Nat) : ExprAccepts fuel := by
  induction fuel with
  | zero => constructor <;> intros <;> intro s a s' h <;> cases h
  | succ fuel ih =>
    constructor
    case expression =>
      unfold expression
      refine .bind ih.ternary fun target v => ?_
      refine .accept? (fun equals he => ?_) (.pure fun rest _ ht => ?_)
      · exact .bind ih.expression fun value w => assignment_accepts (Token.isMark_iff.1 he)
      · simpa using ReadsExpr.assignmentTernary ht
    case ternary =>
      unfold ternary
      refine .bind (ih.binary .or) fun c u => ?_
      refine .accept (fun question hq => ?_) (.pure fun rest _ hc => ?_)
      · refine .bind ih.ternary fun a v => .expect fun colon hcolon => ?_
        refine .bind ih.ternary fun b w => .pure fun rest hb ha hc => ?_
        simpa using ReadsExpr.ternary hc (Token.isMark_iff.1 hq) ha (Token.isMark_iff.1 hcolon) hb
      · simpa using ReadsExpr.ternaryBinary hc
    case binary =>
      intro l
      unfold binary
      refine .bind (ih.operand l) fun left v => (ih.chain l left).mono fun w rest e h hl => ?_
      exact h v (.binaryOperand hl)
    case operand =>
      intro l
      unfold operand
      split
      · next tighter ht => exact (ih.binary tighter).mono fun w rest e h => .operandBinary ht h
      · next ht => exact ih.unary.mono fun w rest e h => .operandUnary ht h
    case chain =>
      intro l left
      unfold chain
      refine .accept? (fun operator ho => ?_) (.pure fun rest _ v hl => by simpa using hl)
      refine .bind (ih.operand l) fun right w => (ih.chain l _).mono fun x rest e h hr v hl => ?_
      simpa using h _ (.binary hl (by simpa [Level.isOperator] using ho) hr)
    case unary =>
      unfold unary
      refine .accept? (fun operator ho => ?_) ?_
      · refine .bind ih.unary fun right w => .pure fun rest h => ?_
        simpa using ReadsExpr.unary (by simpa [isUnaryOperator] using ho) h
      · refine .bind ih.primary fun callee v => (ih.suffixes callee).mono fun w rest e h hc _ => ?_
        exact .unaryCall (h v (.callPrimary hc))
    case suffixes =>
      intro callee
      unfold suffixes
      refine .accept (fun left hl => ?_) ?_
      · refine .bind ih.arguments fun given w => .expect fun paren hp => ?_
        refine (ih.suffixes _).mono fun x rest e h hg v hc => ?_
        simpa using h _ (.call hc (Token.isMark_iff.1 hl) hg (Token.isMark_iff.1 hp))
      · refine .accept (fun dot hd => ?_) (.pure fun rest _ _ v hc => by simpa using hc)
        refine .expect fun name hn => (ih.suffixes _).mono fun x rest e h _ v hc => ?_
        simpa using h _ (.get hc (Token.isMark_iff.1 hd) (Token.isIdentifier_iff.1 hn))
    case arguments =>
      unfold arguments
      refine .next fun b => ?_
      split
      · exact .pure fun rest => .nil
      · exact (ih.argumentsFrom 0).mono fun w rest es h => .some h.1 (by simpa using h.2)
    case argumentsFrom =>
      intro count
      have hrest : Accepts (commas (expression fuel) (argumentsFrom fuel (count + 1))) fun w _ es =>
            ReadsSomeArguments w es ∧ (es.length = 1 ∨ count + es.length ≤ maxArity) := by
        refine .bind ih.expression fun first v => ?_
        refine .accept (fun comma hc => ?_) (.pure fun rest _ hf => ?_)
        · refine .bind (ih.argumentsFrom _) fun es w => .pure fun rest h hf => ?_
          refine ⟨by simpa using ReadsSomeArguments.cons hf (Token.isMark_iff.1 hc) h.1, .inr ?_⟩
          simp only [List.length_cons]
          omega
        · exact ⟨by simpa using ReadsSomeArguments.one hf, .inl rfl⟩
      unfold argumentsFrom
      split
      · exact .current fun t => .report hrest
      · exact hrest.mono fun w rest es h => ⟨h.1, by omega⟩
    case primary =>
      unfold primary
      refine .take? (fun value t ht => .pure fun rest => .literal ht) ?_
      refine .accept? (fun keyword hk => .freshId fun id => .pure fun rest _ => ?_) ?_
      · exact .this (Token.isKeyword_iff.1 hk)
      refine .accept? (fun name hn => .freshId fun id => .pure fun rest _ _ => ?_) ?_
      · exact .variable (Token.isIdentifier_iff.1 hn)
      refine .accept (fun left hl => ?_) .fail
      refine .bind ih.expression fun inner w => .expect fun right hr => .pure fun rest h _ _ _ => ?_
      exact .group (Token.isMark_iff.1 hl) h (Token.isMark_iff.1 hr)

/-- More parameters than may be are reported, so without errors there are no more. -/
theorem parametersFrom_accepts (fuel count : Nat) :
    Accepts (parametersFrom fuel count) fun w _ ps =>
      ReadsSomeParameters w ps ∧ count + ps.length ≤ maxArity := by
  induction fuel generalizing count with
  | zero => intro s a s' h; cases h
  | succ fuel ih =>
    have hrest : Accepts (commas (expect Token.isIdentifier .parameterName) (parametersFrom fuel (count + 1)))
        fun w _ ps => ReadsSomeParameters w ps ∧ (ps.length = 1 ∨ count + ps.length ≤ maxArity) := by
      refine .expect fun first hf => ?_
      refine .accept (fun comma hc => ?_) (.pure fun rest _ => ?_)
      · refine .bind (ih _) fun ps w => .pure fun rest h => ?_
        refine ⟨?_, .inr (by simp only [List.length_cons]; omega)⟩
        simpa using ReadsSomeParameters.cons (Token.isIdentifier_iff.1 hf) (Token.isMark_iff.1 hc) h.1
      · exact ⟨.one (Token.isIdentifier_iff.1 hf), .inl rfl⟩
    unfold parametersFrom
    split
    · exact .current fun t => .report hrest
    · exact hrest.mono fun w rest ps h => ⟨h.1, by omega⟩

theorem parameters_accepts (fuel : Nat) : Accepts (parameters fuel) fun w _ ps => ReadsParameters w ps := by
  refine .next fun b => ?_
  split
  · exact .pure fun rest => .nil
  · exact (parametersFrom_accepts fuel 0).mono fun w rest ps h => .some h.1 (by simpa using h.2)

theorem expressionUnless_accepts (fuel : Nat) (p : Token → Bool) :
    Accepts (expressionUnless fuel p) fun w _ e => ReadsOptional w e := by
  refine .next fun b => ?_
  split
  · exact .pure fun rest => .none
  · exact .map (exprAccepts fuel).expression fun w rest e h => .some h

theorem varDeclaration_accepts (fuel : Nat) : Accepts (varDeclaration fuel) fun w _ s => ReadsVar w s := by
  refine .expect fun name hn => ?_
  refine .accept (fun equals he => ?_) ?_
  · refine .bind (exprAccepts fuel).expression fun value w => .expect fun semicolon hs => ?_
    exact .pure fun rest h => .initialized (Token.isIdentifier_iff.1 hn) (Token.isMark_iff.1 he) h
      (Token.isMark_iff.1 hs)
  · refine .expect fun semicolon hs => .pure fun rest _ => ?_
    exact .bare (Token.isIdentifier_iff.1 hn) (Token.isMark_iff.1 hs)

theorem expressionStatement_accepts (fuel : Nat) :
    Accepts (expressionStatement fuel) fun w _ s => ReadsExprStmt w s := by
  refine .bind (exprAccepts fuel).expression fun value w => .expect fun semicolon hs => ?_
  exact .pure fun rest h => .mk h (Token.isMark_iff.1 hs)

theorem forInitializer_accepts (fuel : Nat) :
    Accepts (forInitializer fuel) fun w _ start => ReadsForStart w start := by
  refine .accept (fun semicolon hs => .pure fun rest => .none (Token.isMark_iff.1 hs)) ?_
  refine .accept (fun var hv => ?_) ?_
  · exact .map (varDeclaration_accepts fuel) fun w rest s h _ => .var (Token.isKeyword_iff.1 hv) h
  · exact .map (expressionStatement_accepts fuel) fun w rest s h _ _ => .expression h

/-- The loop that is built, told by what is put around it. -/
theorem forLoop_eq (start : Option Stmt) (c increment : Option Expr) (body : Stmt) :
    Stmt.forLoop start c increment body =
      withStart start (.loop (c.getD (.literal (.bool true))) (withIncrement increment body)) := by
  cases start <;> cases increment <;> rfl

/-- The next token is not an `else`. -/
def NoElse (rest : List Token) : Prop := ∀ t ∈ rest.head?, t.kind ≠ .keyword .else_

/-- The tokens read as the statement, and an `else` that an `if` in it could take is taken. -/
def ReadsWhole (w rest : List Token) (s : Stmt) : Prop :=
  ∃ isOpen, ReadsStmt w s isOpen ∧ (isOpen = true → NoElse rest)

/-- What a reader of statements consumes without an error reads as its answer. Some are called with a word or a
brace already consumed, which then is the first token. -/
structure StmtAccepts (fuel : Nat) : Prop where
  declarations : ∀ b, Accepts (declarations fuel b) fun w rest ss =>
    ReadsDeclarations w ss ∧ (b = false → rest = [])
  declaration : Accepts (declaration fuel) fun w _ s => ∃ isOpen, ReadsDeclaration w s isOpen
  classDeclaration : Accepts (classDeclaration fuel) fun w _ s =>
    ∀ t : Token, t.kind = .keyword .class_ → ReadsDeclaration (t :: w) s false
  methods : Accepts (methods fuel) fun w _ fs => ReadsMethods w fs
  function : ∀ c, Accepts (function fuel c) fun w _ f => ReadsFunction w f
  block : Accepts (block fuel) fun w _ body =>
    ∀ t : Token, t.kind = .mark .leftBrace → ReadsBlock (t :: w) body
  statement : Accepts (statement fuel) ReadsWhole
  forStatement : Accepts (forStatement fuel) fun w rest s =>
    ∀ t : Token, t.kind = .keyword .for_ → ReadsWhole (t :: w) rest s
  ifStatement : Accepts (ifStatement fuel) fun w rest s =>
    ∀ t : Token, t.kind = .keyword .if_ → ReadsWhole (t :: w) rest s
  whileStatement : Accepts (whileStatement fuel) fun w rest s =>
    ∀ t : Token, t.kind = .keyword .while_ → ReadsWhole (t :: w) rest s

/-- A statement that is not open leaves nothing for a second branch. -/
theorem ReadsWhole.closed {w rest : List Token} {s : Stmt} (h : ReadsStmt w s false) :
    ReadsWhole w rest s :=
  ⟨false, h, fun hf => by cases hf⟩

/-- All readers of statements, by induction on fuel. -/
theorem stmtAccepts (fuel : Nat) : StmtAccepts fuel := by
  induction fuel with
  | zero => constructor <;> intros <;> intro s a s' h <;> cases h
  | succ fuel ih =>
    have hexpr := exprAccepts fuel
    constructor
    case declarations =>
      intro b
      unfold declarations
      refine .atEnd (.pure fun rest h => ⟨.nil, by simpa using h⟩) ?_
      refine .bind (φ := fun w a => ∃ s isOpen, a = some s ∧ ReadsDeclaration w s isOpen) ?_ ?_
      · refine ih.declaration.recover.mono fun w rest a h => ?_
        obtain ⟨s, rfl, isOpen, h⟩ := h
        exact ⟨s, isOpen, rfl, h⟩
      · refine fun first v => .bindRest (ih.declarations b) fun ss w => .pure fun rest h hfirst => ?_
        obtain ⟨s, isOpen, rfl, hs⟩ := hfirst
        exact ⟨by simpa using ReadsDeclarations.cons hs h.1, by simpa using h.2⟩
    case declaration =>
      unfold declaration
      refine .accept (fun t ht => ?_) ?_
      · exact ih.classDeclaration.mono fun w rest s h => ⟨false, h t (Token.isKeyword_iff.1 ht)⟩
      refine .accept (fun t ht => ?_) ?_
      · exact .map (ih.function _) fun w rest f h _ => ⟨false, .function (Token.isKeyword_iff.1 ht) h⟩
      refine .accept (fun t ht => ?_) ?_
      · refine (varDeclaration_accepts fuel).mono fun w rest s h _ _ => ⟨false, ?_⟩
        exact .var (Token.isKeyword_iff.1 ht) h
      · refine ih.statement.mono fun w rest s h _ _ _ => ?_
        obtain ⟨isOpen, hs, _⟩ := h
        exact ⟨isOpen, .statement hs⟩
    case classDeclaration =>
      unfold classDeclaration
      refine .expect fun name hn => .expect fun left hl => .bind ih.methods fun declared w => ?_
      refine .expect fun right hr => .pure fun rest hd t ht => ?_
      exact .class ht (Token.isIdentifier_iff.1 hn) (Token.isMark_iff.1 hl) hd (Token.isMark_iff.1 hr)
    case methods =>
      unfold methods
      refine .atEnd (.pure fun rest _ => .nil) ?_
      refine .bind (ih.function _) fun f v => .bind ih.methods fun fs w => .pure fun rest hs hf => ?_
      simpa using ReadsMethods.cons hf hs
    case function =>
      intro c
      unfold function
      refine .expect fun name hn => .expect fun left hl => .bind (parameters_accepts fuel) fun ps v => ?_
      refine .expect fun right hr => .expect fun brace hb => .bind ih.block fun body w => ?_
      refine .pure fun rest hbody hps => ?_
      simpa using ReadsFunction.mk (Token.isIdentifier_iff.1 hn) (Token.isMark_iff.1 hl) hps
        (Token.isMark_iff.1 hr) (hbody brace (Token.isMark_iff.1 hb))
    case block =>
      unfold block
      refine .bindRest (ih.declarations true) fun body w => .expect fun right hr => ?_
      exact .pure fun rest h t ht => .mk ht h.1 (Token.isMark_iff.1 hr)
    case statement =>
      unfold statement
      refine .accept (fun t ht => ?_) ?_
      · exact ih.forStatement.mono fun w rest s h => h t (Token.isKeyword_iff.1 ht)
      refine .accept (fun t ht => ?_) ?_
      · exact ih.ifStatement.mono fun w rest s h _ => h t (Token.isKeyword_iff.1 ht)
      refine .accept (fun t ht => ?_) ?_
      · refine .bind hexpr.expression fun e w => .expect fun semicolon hs => .pure fun rest h _ _ => ?_
        exact .closed (.print (Token.isKeyword_iff.1 ht) h (Token.isMark_iff.1 hs))
      refine .accept? (fun t ht => ?_) ?_
      · refine .bind (expressionUnless_accepts fuel _) fun value w => .expect fun semicolon hs => ?_
        refine .pure fun rest h _ _ _ => ?_
        exact .closed (.return (Token.isKeyword_iff.1 ht) h (Token.isMark_iff.1 hs))
      refine .accept (fun t ht => ?_) ?_
      · exact ih.whileStatement.mono fun w rest s h _ _ _ _ => h t (Token.isKeyword_iff.1 ht)
      refine .accept? (fun t ht => ?_) ?_
      · refine .expect fun semicolon hs => .pure fun rest _ _ _ _ _ => ?_
        exact .closed (.break (Token.isKeyword_iff.1 ht) (Token.isMark_iff.1 hs))
      refine .accept (fun t ht => ?_) ?_
      · refine .map ih.block fun w rest body h _ _ _ _ _ _ => ?_
        exact .closed (.block (h t (Token.isMark_iff.1 ht)))
      · refine (expressionStatement_accepts fuel).mono fun w rest s h _ _ _ _ _ _ _ => ?_
        exact .closed (.expression h)
    case forStatement =>
      unfold forStatement
      refine .expect fun left hl => .bind (forInitializer_accepts fuel) fun start t => ?_
      refine .bind (expressionUnless_accepts fuel _) fun c u => .expect fun semicolon hs => ?_
      refine .bind (expressionUnless_accepts fuel _) fun increment v => .expect fun right hr => ?_
      refine .bindRest ih.statement fun body w => .pure fun rest hbody hi hc hstart t ht => ?_
      obtain ⟨isOpen, hbody, hopen⟩ := hbody
      refine ⟨isOpen, ?_, by simpa using hopen⟩
      rw [forLoop_eq]
      simpa using ReadsStmt.for ht (Token.isMark_iff.1 hl) hstart hc (Token.isMark_iff.1 hs) hi
        (Token.isMark_iff.1 hr) hbody
    case ifStatement =>
      unfold ifStatement
      refine .expect fun left hl => .bind hexpr.expression fun c u => .expect fun right hr => ?_
      refine .bindRest ih.statement fun yes v => ?_
      refine .accept (fun else_ he => ?_) (.pure fun rest hne hyes hc t ht => ?_)
      · refine .bindRest ih.statement fun no w => .pure fun rest hno hyes hc t ht => ?_
        obtain ⟨isOpen, hno, hopen⟩ := hno
        obtain ⟨isOpen', hyes, hopen'⟩ := hyes
        cases isOpen' with
        | true => exact absurd (Token.isKeyword_iff.1 he) (hopen' rfl else_ rfl)
        | false =>
          refine ⟨isOpen, ?_, by simpa using hopen⟩
          simpa using ReadsStmt.ifElse ht (Token.isMark_iff.1 hl) hc (Token.isMark_iff.1 hr) hyes
            (Token.isKeyword_iff.1 he) hno
      · obtain ⟨isOpen, hyes, _⟩ := hyes
        refine ⟨true, ?_, fun _ u hu => by simpa [Token.isKeyword] using hne u hu⟩
        simpa using ReadsStmt.if ht (Token.isMark_iff.1 hl) hc (Token.isMark_iff.1 hr) hyes
    case whileStatement =>
      unfold whileStatement
      refine .expect fun left hl => .bind hexpr.expression fun c u => .expect fun right hr => ?_
      refine .bindRest ih.statement fun body v => .pure fun rest hbody hc t ht => ?_
      obtain ⟨isOpen, hbody, hopen⟩ := hbody
      refine ⟨isOpen, ?_, by simpa using hopen⟩
      simpa using ReadsStmt.while ht (Token.isMark_iff.1 hl) hc (Token.isMark_iff.1 hr) hbody

end Parse

end LoxLang
