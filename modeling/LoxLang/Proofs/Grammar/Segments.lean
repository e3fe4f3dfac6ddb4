import LoxLang.Proofs.Grammar.Seam

namespace LoxLang.Parse

/-- A semicolon with tokens before it among which no declaration could start anew, and which are read as none. -/
structure BadSegment (w : List Token) (semicolon : Token) : Prop where
  closed : semicolon.kind = .mark .semicolon
  inside : ∀ t ∈ w, t.kind ≠ .mark .semicolon ∧ t.kind ≠ .finish ∧ t.kind ≠ .mark .leftBrace ∧
    t.kind ≠ .mark .rightBrace
  first : ∀ t ∈ w.head?, t.kind ≠ .keyword .else_ ∧ t.kind ≠ .keyword .for_
  later : ∀ t ∈ w.tail, startsStatement t = false
  dropped : ∃ s, recover (declaration (Parsed.fuelFor (w ++ [semicolon]))) (start (w ++ [semicolon]) 0) = .done none s

/-- The segment has one semicolon, at its end, no braces and no `for`. -/
structure Quiet (w : List Token) (semicolon : Token) : Prop where
  closed : semicolon.kind = .mark .semicolon
  inside : ∀ t ∈ w, t.isMark .semicolon = false ∧ t.isMark .leftBrace = false ∧ t.isKeyword .for_ = false

/-- What is left to be read is the end of the segment, with its semicolon. -/
def State.Inside (w : List Token) (semicolon : Token) (s : State) : Prop :=
  ∃ v, v <:+ w ∧ s.tokens = v ++ [semicolon]

/-- The state with the tokens of another one behind its own, after what that one has reported. -/
def State.before (s c : State) : State := ⟨s.tokens ++ c.tokens, c.finish, c.errors ++ s.errors, s.nextId⟩

variable {α β : Type} {w : List Token} {semicolon : Token}

/-- The second outcome is the first one with more tokens behind it. Reading is still inside the segment. -/
def Outcome.Goes (w : List Token) (semicolon : Token) (c : State) (o o' : Outcome α) : Prop :=
  match o with
  | .done a s => o' = .exhausted ∨ s.Inside w semicolon ∧ o' = .done a (s.before c)
  | .failed e s => o' = .exhausted ∨ s.Inside w semicolon ∧ o' = .failed e (s.before c)
  | .exhausted => True

/-- The same, but success has read the whole segment. -/
def Outcome.Closes (w : List Token) (semicolon : Token) (c : State) (o o' : Outcome α) : Prop :=
  match o with
  | .done _ s => o' = .exhausted ∨ s.tokens = []
  | .failed e s => o' = .exhausted ∨ s.Inside w semicolon ∧ o' = .failed e (s.before c)
  | .exhausted => True

theorem Outcome.Goes.exhausted (c : State) (o : Outcome α) : o.Goes w semicolon c .exhausted := by
  cases o with
  | exhausted => trivial
  | _ => exact .inl rfl

theorem Outcome.Closes.exhausted (c : State) (o : Outcome α) : o.Closes w semicolon c .exhausted := by
  cases o with
  | exhausted => trivial
  | _ => exact .inl rfl

/-- Inside the segment the second reader goes with the first, whatever comes behind the segment. -/
def Goes (w : List Token) (semicolon : Token) (x y : Parse α) : Prop :=
  ∀ s c : State, s.Inside w semicolon → (x s).Goes w semicolon c (y (s.before c))

def Closes (w : List Token) (semicolon : Token) (x y : Parse α) : Prop :=
  ∀ s c : State, s.Inside w semicolon → (x s).Closes w semicolon c (y (s.before c))

/-- Inside the segment the token at hand is one of its own, whatever comes behind. -/
theorem State.before_current {s c : State} (h : s.Inside w semicolon) : (s.before c).current = s.current := by
  obtain ⟨v, -, hv⟩ := h
  unfold State.current State.before
  rw [hv]
  cases v <;> rfl

theorem State.before_head {s c : State} (h : s.Inside w semicolon) : (s.before c).tokens.head? = s.tokens.head? := by
  obtain ⟨v, -, hv⟩ := h
  unfold State.before
  rw [hv]
  cases v <;> rfl

namespace Goes

theorem pure (a : α) : Goes w semicolon (Pure.pure a) (Pure.pure a) := fun _ _ h => .inr ⟨h, rfl⟩

theorem exhausted (y : Parse α) : Goes w semicolon exhausted y := fun _ _ _ => trivial

theorem of_exhausted (x : Parse α) : Goes w semicolon x Parse.exhausted := fun s c _ => .exhausted c (x s)

/-- A reader inside the segment and then another. -/
theorem bind {x y : Parse α} {f g : α → Parse β} (hx : Goes w semicolon x y) (hf : ∀ a, Goes w semicolon (f a) (g a)) :
    Goes w semicolon (x >>= f) (y >>= g) := by
  intro s c h
  have hs := hx s c h
  cases hxs : x s with
  | exhausted =>
    rw [bind_exhausted hxs]
    trivial
  | failed e s' =>
    rw [hxs] at hs
    rw [bind_failed hxs]
    rcases hs with hs | ⟨hin, hs⟩
    · exact .inl (bind_exhausted hs)
    · exact .inr ⟨hin, bind_failed hs⟩
  | done a s' =>
    rw [hxs] at hs
    rw [bind_done hxs]
    rcases hs with hs | ⟨hin, hs⟩
    · rw [bind_exhausted hs]
      exact .exhausted c _
    · rw [bind_done hs]
      exact hf a s' c hin

theorem map {x y : Parse α} (f : α → β) (hx : Goes w semicolon x y) : Goes w semicolon (f <$> x) (f <$> y) := by
  rw [← bind_pure_comp, ← bind_pure_comp]
  exact .bind hx fun a => .pure (f a)

/-- An error inside the segment is raised at one of its tokens. -/
theorem fail (cause : SyntaxError.Cause) : Goes w semicolon (Parse.fail cause : Parse α) (Parse.fail cause) := by
  intro s c h
  refine .inr ⟨h, ?_⟩
  unfold Parse.fail
  rw [State.before_current h]

theorem report (cause : SyntaxError.Cause) (t : Token) :
    Goes w semicolon (Parse.report cause t) (Parse.report cause t) := by
  intro s c h
  refine .inr ⟨h, ?_⟩
  simp [Parse.report, State.before]

theorem current : Goes w semicolon Parse.current Parse.current := by
  intro s c h
  refine .inr ⟨h, ?_⟩
  unfold Parse.current
  rw [State.before_current h]

theorem freshId : Goes w semicolon Parse.freshId Parse.freshId := fun _ _ h => .inr ⟨h, rfl⟩

theorem next (p : Token → Bool) : Goes w semicolon (Parse.next p) (Parse.next p) := by
  intro s c h
  refine .inr ⟨h, ?_⟩
  unfold Parse.next
  rw [State.before_head h]

/-- The semicolon is left where it is. -/
theorem take? {g : Token → Option α} (hg : g semicolon = none) :
    Goes w semicolon (Parse.take? g) (Parse.take? g) := by
  intro s c h
  obtain ⟨v, hv, hs⟩ := h
  cases v with
  | nil =>
    have hx : Parse.take? g s = .done none s := take?_none (by simp [hs, hg])
    have hy : Parse.take? g (s.before c) = .done none (s.before c) := take?_none (by simp [State.before, hs, hg])
    rw [hx, hy]
    exact .inr ⟨⟨[], hv, hs⟩, rfl⟩
  | cons t v =>
    have hv' : v <:+ w := (List.suffix_cons t v).trans hv
    cases ht : g t with
    | none =>
      have hx : Parse.take? g s = .done none s := take?_none (by simp [hs, ht])
      have hy : Parse.take? g (s.before c) = .done none (s.before c) :=
        take?_none (by simp [State.before, hs, ht])
      rw [hx, hy]
      exact .inr ⟨⟨t :: v, hv, hs⟩, rfl⟩
    | some a =>
      have hx := take?_some (s := s) hs ht
      have hy : Parse.take? g (s.before c) = .done (some a) ({ s with tokens := v ++ [semicolon] }.before c) :=
        take?_some (by simp [State.before, hs]) ht
      rw [hx, hy]
      exact .inr ⟨⟨v, hv', rfl⟩, rfl⟩

theorem accept? {p : Token → Bool} (hp : p semicolon = false) :
    Goes w semicolon (Parse.accept? p) (Parse.accept? p) :=
  .take? (by simp [hp])

theorem accept {p : Token → Bool} (hp : p semicolon = false) : Goes w semicolon (Parse.accept p) (Parse.accept p) :=
  .bind (.accept? hp) fun t => .pure t.isSome

theorem expect {p : Token → Bool} {cause : SyntaxError.Cause} (hp : p semicolon = false) :
    Goes w semicolon (Parse.expect p cause) (Parse.expect p cause) := by
  refine .bind (.accept? hp) fun t => ?_
  cases t with
  | none => exact .fail cause
  | some t => exact .pure t

/-- A list may end at the semicolon but not go on behind it. -/
theorem commas {item item' : Parse α} {others others' : Parse (List α)} (hitem : Goes w semicolon item item')
    (hc : semicolon.isMark .comma = false) (hothers : Goes w semicolon others others') :
    Goes w semicolon (Parse.commas item others) (Parse.commas item' others') := by
  refine .bind hitem fun first => .bind (.accept hc) fun more => ?_
  cases more with
  | true => exact .bind hothers fun rest => .pure _
  | false => exact .pure _

end Goes

/-- What all readers of expressions do, with whatever fuel each. -/
structure ExprGoes (w : List Token) (semicolon : Token) (fuel fuel' : Nat) : Prop where
  expression : Goes w semicolon (expression fuel) (expression fuel')
  ternary : Goes w semicolon (ternary fuel) (ternary fuel')
  binary : ∀ l, Goes w semicolon (binary fuel l) (binary fuel' l)
  operand : ∀ l, Goes w semicolon (operand fuel l) (operand fuel' l)
  chain : ∀ l left, Goes w semicolon (chain fuel l left) (chain fuel' l left)
  unary : Goes w semicolon (unary fuel) (unary fuel')
  suffixes : ∀ callee, Goes w semicolon (suffixes fuel callee) (suffixes fuel' callee)
  arguments : Goes w semicolon (arguments fuel) (arguments fuel')
  argumentsFrom : ∀ count, Goes w semicolon (argumentsFrom fuel count) (argumentsFrom fuel' count)
  primary : Goes w semicolon (primary fuel) (primary fuel')

theorem assignment_goes (target : Expr) (equals : Token) (value : Expr) :
    Goes w semicolon (assignment target equals value) (assignment target equals value) := by
  unfold assignment
  cases target with
  | «variable» i name => exact .bind .freshId fun j => .pure _
  | get object name => exact .pure _
  | _ => exact .bind (.report _ equals) fun _ => .pure _

section

variable (hs : semicolon.kind = .mark .semicolon)
include hs

/-- The semicolon is no other mark. -/
theorem not_isMark {m : Mark} (hm : m ≠ .semicolon) : semicolon.isMark m = false := by
  simp [Token.isMark, hs, Ne.symm hm]

theorem not_isKeyword (k : Keyword) : semicolon.isKeyword k = false := by
  simp [Token.isKeyword, hs]

theorem not_isIdentifier : semicolon.isIdentifier = false := by
  simp [Token.isIdentifier, hs]

/-- Nor is it an operator of any level, so no expression goes on over it. -/
theorem not_isOperator (l : Level) : l.isOperator semicolon = false := by
  unfold Level.isOperator
  rw [hs]
  cases l <;> rfl

theorem not_isUnaryOperator : isUnaryOperator semicolon = false := by
  simp [isUnaryOperator, Token.isMark, hs]

theorem literal?_semicolon : literal? semicolon = none := by
  simp [literal?, hs]

/-- By induction on the fuel of both. No reader of expressions consumes a semicolon. -/
theorem exprGoes (fuel : Nat) : ∀ fuel', ExprGoes w semicolon fuel fuel' := by
  -- alone and in its place the segment is read with different fuel, so the second stays general
  induction fuel with
  | zero =>
    intro fuel'
    constructor <;> intros <;> exact .exhausted _
  | succ fuel ih =>
    intro fuel'
    cases fuel' with
    | zero => constructor <;> intros <;> exact .of_exhausted _
    | succ fuel' =>
      have ih := ih fuel'
      constructor
      case expression =>
        unfold expression
        refine .bind ih.ternary fun target => .bind (.accept? (not_isMark hs (by decide))) fun equals => ?_
        cases equals with
        | none => exact .pure _
        | some equals => exact .bind ih.expression fun value => assignment_goes target equals value
      case ternary =>
        unfold ternary
        refine .bind (ih.binary .or) fun condition => .bind (.accept (not_isMark hs (by decide))) fun asked => ?_
        cases asked with
        | false => exact .pure _
        | true =>
          refine .bind ih.ternary fun yes => .bind (.expect (not_isMark hs (by decide))) fun colon => ?_
          exact .bind ih.ternary fun no => .pure _
      case binary =>
        intro l
        unfold binary
        exact .bind (ih.operand l) fun left => ih.chain l left
      case operand =>
        intro l
        unfold operand
        cases l.tighter? with
        | none => exact ih.unary
        | some tighter => exact ih.binary tighter
      case chain =>
        intro l left
        unfold chain
        refine .bind (.accept? (not_isOperator hs l)) fun operator => ?_
        cases operator with
        | none => exact .pure _
        | some operator => exact .bind (ih.operand l) fun right => ih.chain l _
      case unary =>
        unfold unary
        refine .bind (.accept? (not_isUnaryOperator hs)) fun operator => ?_
        cases operator with
        | none => exact .bind ih.primary fun callee => ih.suffixes callee
        | some operator => exact .bind ih.unary fun right => .pure _
      case suffixes =>
        intro callee
        unfold suffixes
        refine .bind (.accept (not_isMark hs (by decide))) fun called => ?_
        cases called with
        | true =>
          refine .bind ih.arguments fun given => .bind (.expect (not_isMark hs (by decide))) fun paren => ?_
          exact ih.suffixes _
        | false =>
          refine .bind (.accept (not_isMark hs (by decide))) fun dotted => ?_
          cases dotted with
          | true => exact .bind (.expect (not_isIdentifier hs)) fun name => ih.suffixes _
          | false => exact .pure _
      case arguments =>
        unfold arguments
        refine .bind (.next _) fun closed => ?_
        cases closed with
        | true => exact .pure _
        | false => exact ih.argumentsFrom 0
      case argumentsFrom =>
        intro count
        have hrest := ih.expression.commas (not_isMark hs (by decide)) (ih.argumentsFrom (count + 1))
        unfold argumentsFrom
        split
        · exact .bind .current fun t => .bind (.report _ t) fun _ => hrest
        · exact hrest
      case primary =>
        unfold primary
        refine .bind (.take? (literal?_semicolon hs)) fun value => ?_
        cases value with
        | some value => exact .pure _
        | none =>
          refine .bind (.accept? (not_isKeyword hs _)) fun keyword => ?_
          cases keyword with
          | some keyword => exact .bind .freshId fun i => .pure _
          | none =>
            refine .bind (.accept? (not_isIdentifier hs)) fun name => ?_
            cases name with
            | some name => exact .bind .freshId fun i => .pure _
            | none =>
              refine .bind (.accept (not_isMark hs (by decide))) fun grouped => ?_
              cases grouped with
              | true =>
                exact .bind ih.expression fun inner => .bind (.expect (not_isMark hs (by decide))) fun paren => .pure _
              | false => exact .fail _

theorem expressionUnless_goes (fuel fuel' : Nat) (p : Token → Bool) :
    Goes w semicolon (expressionUnless fuel p) (expressionUnless fuel' p) := by
  unfold expressionUnless
  refine .bind (.next p) fun found => ?_
  cases found with
  | true => exact .pure _
  | false => exact .map some (exprGoes hs fuel fuel').expression

theorem parametersFrom_goes (fuel : Nat) : ∀ fuel' count,
    Goes w semicolon (parametersFrom fuel count) (parametersFrom fuel' count) := by
  induction fuel with
  | zero => exact fun _ _ => .exhausted _
  | succ fuel ih =>
    intro fuel' count
    cases fuel' with
    | zero => exact .of_exhausted _
    | succ fuel' =>
      have hname : Goes w semicolon (expect Token.isIdentifier .parameterName)
          (expect Token.isIdentifier .parameterName) := .expect (not_isIdentifier hs)
      have hrest := hname.commas (not_isMark hs (by decide)) (ih fuel' (count + 1))
      unfold parametersFrom
      split
      · exact .bind .current fun t => .bind (.report _ t) fun _ => hrest
      · exact hrest

theorem parameters_goes (fuel fuel' : Nat) : Goes w semicolon (parameters fuel) (parameters fuel') := by
  unfold parameters
  refine .bind (.next _) fun closed => ?_
  cases closed with
  | true => exact .pure _
  | false => exact parametersFrom_goes hs fuel fuel' 0

end

/-- Where nothing is left, reading is done and leaves nothing. -/
def Silent (x : Parse α) : Prop := ∀ s : State, s.tokens = [] → ∃ a s', x s = .done a s' ∧ s'.tokens = []

theorem Silent.pure (a : α) : Silent (Pure.pure a) := fun s h => ⟨a, s, rfl, h⟩

namespace Closes

theorem exhausted (y : Parse α) : Closes w semicolon exhausted y := fun _ _ _ => trivial

theorem of_exhausted (x : Parse α) : Closes w semicolon x Parse.exhausted := fun s c _ => .exhausted c (x s)

/-- A reader inside the segment and then one that closes it. -/
theorem bind {x y : Parse α} {f g : α → Parse β} (hx : Goes w semicolon x y)
    (hf : ∀ a, Closes w semicolon (f a) (g a)) : Closes w semicolon (x >>= f) (y >>= g) := by
  intro s c h
  have hs := hx s c h
  cases hxs : x s with
  | exhausted =>
    rw [bind_exhausted hxs]
    trivial
  | failed e s' =>
    rw [hxs] at hs
    rw [bind_failed hxs]
    rcases hs with hs | ⟨hin, hs⟩
    · exact .inl (bind_exhausted hs)
    · exact .inr ⟨hin, bind_failed hs⟩
  | done a s' =>
    rw [hxs] at hs
    rw [bind_done hxs]
    rcases hs with hs | ⟨hin, hs⟩
    · rw [bind_exhausted hs]
      exact .exhausted c _
    · rw [bind_done hs]
      exact hf a s' c hin

/-- Once the segment is read nothing more is needed of it. -/
theorem followed {x y : Parse α} {f g : α → Parse β} (hx : Closes w semicolon x y) (hf : ∀ a, Silent (f a)) :
    Closes w semicolon (x >>= f) (y >>= g) := by
  intro s c h
  have hs := hx s c h
  cases hxs : x s with
  | exhausted =>
    rw [bind_exhausted hxs]
    trivial
  | failed e s' =>
    rw [hxs] at hs
    rw [bind_failed hxs]
    rcases hs with hs | ⟨hin, hs⟩
    · exact .inl (bind_exhausted hs)
    · exact .inr ⟨hin, bind_failed hs⟩
  | done a s' =>
    rw [hxs] at hs
    rw [bind_done hxs]
    rcases hs with hs | hs
    · rw [bind_exhausted hs]
      exact .exhausted c _
    · obtain ⟨b, s'', hb, hs''⟩ := hf a s' hs
      rw [hb]
      exact .inr hs''

theorem map {x y : Parse α} (f : α → β) (hx : Closes w semicolon x y) : Closes w semicolon (f <$> x) (f <$> y) := by
  rw [← bind_pure_comp, ← bind_pure_comp]
  exact hx.followed fun a => .pure (f a)

theorem fail (cause : SyntaxError.Cause) : Closes w semicolon (Parse.fail cause : Parse α) (Parse.fail cause) :=
  fun s c h => Goes.fail (α := α) cause s c h

/-- The semicolon that ends a statement is the last token of the segment. -/
theorem atSemicolon (h : Quiet w semicolon) {f g : Token → Parse β} {cause : SyntaxError.Cause}
    (hf : ∀ t, Silent (f t)) :
    Closes w semicolon (expect (·.isMark .semicolon) cause >>= f) (expect (·.isMark .semicolon) cause >>= g) := by
  rw [expect_bind, expect_bind]
  intro s c hin
  obtain ⟨v, hv, hs⟩ := hin
  cases v with
  | nil =>
    have hp : semicolon.isMark .semicolon = true := by simp [Token.isMark, h.closed]
    have hx : accept? (·.isMark .semicolon) s = .done (some semicolon) { s with tokens := [] } :=
      take?_some hs (by simp [hp])
    rw [bind_done hx]
    obtain ⟨b, s', hb, hs'⟩ := hf semicolon { s with tokens := [] } rfl
    change Outcome.Closes w semicolon c (f semicolon _) _
    rw [hb]
    exact .inr hs'
  | cons t v =>
    have hp : ¬t.kind = .mark .semicolon := by
      simpa [Token.isMark] using (h.inside t (hv.subset List.mem_cons_self)).1
    have hx : accept? (·.isMark .semicolon) s = .done none s := take?_none (by simp [hs, hp])
    have hy : accept? (·.isMark .semicolon) (s.before c) = .done none (s.before c) :=
      take?_none (by simp [State.before, hs, hp])
    rw [bind_done hx, bind_done hy]
    exact fail cause s c ⟨t :: v, hv, hs⟩

/-- A token that the segment does not have is not next. -/
theorem absent {p : Token → Bool} (hp : ∀ t ∈ w, p t = false) (hs : p semicolon = false) {s c : State}
    (h : s.Inside w semicolon) :
    accept? p s = .done none s ∧ accept? p (s.before c) = .done none (s.before c) := by
  have hhead : ∀ t ∈ s.tokens.head?, p t = false := by
    obtain ⟨v, hv, htokens⟩ := h
    rw [htokens]
    intro t ht
    cases v with
    | nil => exact Option.mem_some.1 ht ▸ hs
    | cons u v => exact Option.mem_some.1 ht ▸ hp u (hv.subset List.mem_cons_self)
  refine ⟨take?_none fun t ht => by simp [hhead t ht], take?_none fun t ht => ?_⟩
  rw [State.before_head h] at ht
  simp [hhead t ht]

/-- What the segment does not have is not accepted, with or without tokens behind it. -/
theorem accept_absent {p : Token → Bool} (hp : ∀ t ∈ w, p t = false) (hs : p semicolon = false)
    {f g : Bool → Parse β} (hf : Closes w semicolon (f false) (g false)) :
    Closes w semicolon (Parse.accept p >>= f) (Parse.accept p >>= g) := by
  rw [accept_bind, accept_bind]
  intro s c h
  obtain ⟨hx, hy⟩ := absent (c := c) hp hs h
  rw [bind_done hx, bind_done hy]
  exact hf s c h

/-- Where the segment lacks a token that has to come, reading fails inside it. -/
theorem expect_absent {p : Token → Bool} (hp : ∀ t ∈ w, p t = false) (hs : p semicolon = false)
    {cause : SyntaxError.Cause} (f g : Token → Parse β) :
    Closes w semicolon (Parse.expect p cause >>= f) (Parse.expect p cause >>= g) := by
  rw [expect_bind, expect_bind]
  intro s c h
  obtain ⟨hx, hy⟩ := absent (c := c) hp hs h
  rw [bind_done hx, bind_done hy]
  exact fail cause s c h

end Closes

section

variable (h : Quiet w semicolon)
include h

/-- A statement that is read from the segment ends at its semicolon. -/
theorem varDeclaration_closes (fuel fuel' : Nat) :
    Closes w semicolon (varDeclaration fuel) (varDeclaration fuel') := by
  unfold varDeclaration
  refine .bind (.expect (not_isIdentifier h.closed)) fun name => ?_
  refine .bind (.accept (not_isMark h.closed (by decide))) fun initialized => ?_
  cases initialized with
  | true => exact .bind (exprGoes h.closed fuel fuel').expression fun value => .atSemicolon h fun _ => .pure _
  | false => exact .atSemicolon h fun _ => .pure _

theorem expressionStatement_closes (fuel fuel' : Nat) :
    Closes w semicolon (expressionStatement fuel) (expressionStatement fuel') :=
  .bind (exprGoes h.closed fuel fuel').expression fun _ => .atSemicolon h fun _ => .pure _

theorem printStatement_closes (fuel fuel' : Nat) :
    Closes w semicolon (printStatement fuel) (printStatement fuel') :=
  .bind (exprGoes h.closed fuel fuel').expression fun _ => .atSemicolon h fun _ => .pure _

theorem returnStatement_closes (fuel fuel' : Nat) (keyword : Token) :
    Closes w semicolon (returnStatement fuel keyword) (returnStatement fuel' keyword) :=
  .bind (expressionUnless_goes h.closed fuel fuel' _) fun _ => .atSemicolon h fun _ => .pure _

theorem breakStatement_closes (keyword : Token) :
    Closes w semicolon (breakStatement keyword) (breakStatement keyword) :=
  .atSemicolon h fun _ => .pure _

/-- There is no brace for the body of a class. -/
theorem classDeclaration_closes (fuel fuel' : Nat) :
    Closes w semicolon (classDeclaration fuel) (classDeclaration fuel') := by
  cases fuel with
  | zero => exact .exhausted _
  | succ fuel =>
    cases fuel' with
    | zero => exact .of_exhausted _
    | succ fuel' =>
      unfold classDeclaration
      refine .bind (.expect (not_isIdentifier h.closed)) fun name => ?_
      exact .expect_absent (fun t ht => (h.inside t ht).2.1) (not_isMark h.closed (by decide)) _ _

/-- Nor for that of a function. -/
theorem function_closes (fuel fuel' : Nat) (callable : Callable) :
    Closes w semicolon (function fuel callable) (function fuel' callable) := by
  cases fuel with
  | zero => exact .exhausted _
  | succ fuel =>
    cases fuel' with
    | zero => exact .of_exhausted _
    | succ fuel' =>
      unfold function
      refine .bind (.expect (not_isIdentifier h.closed)) fun name => ?_
      refine .bind (.expect (not_isMark h.closed (by decide))) fun left => ?_
      refine .bind (parameters_goes h.closed fuel fuel') fun declared => ?_
      refine .bind (.expect (not_isMark h.closed (by decide))) fun right => ?_
      exact .expect_absent (fun t ht => (h.inside t ht).2.1) (not_isMark h.closed (by decide)) _ _

/-- What the readers of statements do that a segment can get to. -/
structure StmtCloses (w : List Token) (semicolon : Token) (fuel fuel' : Nat) : Prop where
  statement : Closes w semicolon (statement fuel) (statement fuel')
  ifStatement : Closes w semicolon (ifStatement fuel) (ifStatement fuel')
  whileStatement : Closes w semicolon (whileStatement fuel) (whileStatement fuel')

/-- By induction on the fuel of both. -/
theorem stmtCloses (fuel : Nat) : ∀ fuel', StmtCloses w semicolon fuel fuel' := by
  induction fuel with
  | zero =>
    intro fuel'
    constructor <;> exact .exhausted _
  | succ fuel ih =>
    intro fuel'
    cases fuel' with
    | zero => constructor <;> exact .of_exhausted _
    | succ fuel' =>
      have ih := ih fuel'
      have hexpression : Goes w semicolon (expression fuel) (expression fuel') :=
        (exprGoes h.closed fuel fuel').expression
      constructor
      case statement =>
        unfold statement
        refine .accept_absent (fun t ht => (h.inside t ht).2.2) (not_isKeyword h.closed _) ?_
        refine .bind (.accept (not_isKeyword h.closed _)) fun isIf => ?_
        cases isIf with
        | true => exact ih.ifStatement
        | false =>
        refine .bind (.accept (not_isKeyword h.closed _)) fun isPrint => ?_
        cases isPrint with
        | true => exact printStatement_closes h fuel fuel'
        | false =>
        refine .bind (.accept? (not_isKeyword h.closed _)) fun return_ => ?_
        cases return_ with
        | some keyword => exact returnStatement_closes h fuel fuel' keyword
        | none =>
        refine .bind (.accept (not_isKeyword h.closed _)) fun isWhile => ?_
        cases isWhile with
        | true => exact ih.whileStatement
        | false =>
        refine .bind (.accept? (not_isKeyword h.closed _)) fun break_ => ?_
        cases break_ with
        | some keyword => exact breakStatement_closes h keyword
        | none =>
        refine .accept_absent (fun t ht => (h.inside t ht).2.1) (not_isMark h.closed (by decide)) ?_
        exact expressionStatement_closes h fuel fuel'
      case ifStatement =>
        unfold ifStatement
        refine .bind (.expect (not_isMark h.closed (by decide))) fun left => .bind hexpression fun condition => ?_
        refine .bind (.expect (not_isMark h.closed (by decide))) fun right => ?_
        -- Nothing is left in which an `else` could be found.
        refine ih.statement.followed fun yes s hs => ?_
        have hx : accept? (·.isKeyword .else_) s = .done none s := take?_nil hs
        rw [accept_bind, bind_done hx]
        exact ⟨_, s, rfl, hs⟩
      case whileStatement =>
        unfold whileStatement
        refine .bind (.expect (not_isMark h.closed (by decide))) fun left => .bind hexpression fun condition => ?_
        refine .bind (.expect (not_isMark h.closed (by decide))) fun right => ?_
        exact ih.statement.followed fun body => .pure _

/-- A declaration that is read from the segment has read all of it. -/
theorem declaration_closes (fuel fuel' : Nat) : Closes w semicolon (declaration fuel) (declaration fuel') := by
  cases fuel with
  | zero => exact .exhausted _
  | succ fuel =>
    cases fuel' with
    | zero => exact .of_exhausted _
    | succ fuel' =>
      unfold declaration
      refine .bind (.accept (not_isKeyword h.closed _)) fun isClass => ?_
      cases isClass with
      | true => exact classDeclaration_closes h fuel fuel'
      | false =>
      refine .bind (.accept (not_isKeyword h.closed _)) fun isFunction => ?_
      cases isFunction with
      | true => exact .map _ (function_closes h fuel fuel' _)
      | false =>
      refine .bind (.accept (not_isKeyword h.closed _)) fun isVar => ?_
      cases isVar with
      | true => exact varDeclaration_closes h fuel fuel'
      | false => exact (stmtCloses h fuel fuel').statement

end

/-- Reading resumes behind the semicolon if nothing before it could start a statement. -/
theorem resume_segment {v rest : List Token} (hclosed : semicolon.kind = .mark .semicolon)
    (hv : ∀ t ∈ v, t.isMark .semicolon = false) (hlater : ∀ t ∈ v.tail, startsStatement t = false) :
    resume (v ++ semicolon :: rest) = rest := by
  induction v with
  | nil => simp [resume, Token.isMark, hclosed]
  | cons t v ih =>
    have ht : t.isMark .semicolon = false := hv t List.mem_cons_self
    have hhead : (v ++ semicolon :: rest).head?.any startsStatement = false := by
      cases v with
      | nil => simp [startsStatement, hclosed]
      | cons u v => exact hlater u List.mem_cons_self
    rw [List.cons_append, resume, ht, hhead]
    exact ih (fun u hu => hv u (List.mem_cons_of_mem _ hu)) fun u hu => hlater u (List.mem_of_mem_tail hu)

namespace BadSegment

/-- A bad segment has no brace, no loop with clauses and no other semicolon. -/
theorem quiet (h : BadSegment w semicolon) : Quiet w semicolon where
  closed := h.closed
  inside := by
    intro t ht
    obtain ⟨hsemicolon, -, hleft, -⟩ := h.inside t ht
    refine ⟨by simpa [Token.isMark] using hsemicolon, by simpa [Token.isMark] using hleft, ?_⟩
    cases w with
    | nil => cases ht
    | cons u w =>
      rcases List.mem_cons.1 ht with rfl | ht
      · simpa [Token.isKeyword] using (h.first t rfl).2
      · have hlater := h.later t ht
        unfold Token.isKeyword
        rw [beq_eq_false_iff_ne]
        intro hfor
        simp [startsStatement, hfor] at hlater

/-- There is no end of the source in a segment. -/
theorem takeWhile_eq (h : BadSegment w semicolon) :
    (w ++ [semicolon]).takeWhile (·.kind != .finish) = w ++ [semicolon] := by
  apply List.takeWhile_eq_self_iff.2
  intro t ht
  rcases List.mem_append.1 ht with ht | ht
  · simpa using (h.inside t ht).2.1
  · simp [List.mem_singleton.1 ht, h.closed]

theorem start_eq (h : BadSegment w semicolon) (n : OccurrenceId) :
    ∃ finish, start (w ++ [semicolon]) n = ⟨w ++ [semicolon], finish, #[], n⟩ := by
  refine ⟨(Parsed.splitAtFinish (w ++ [semicolon])).2, ?_⟩
  unfold start
  rw [splitAtFinish_fst, h.takeWhile_eq]

/-- How reading the segment fails when it stands alone. -/
theorem fails (h : BadSegment w semicolon) : ∃ (e : SyntaxError) (s : State), ∀ n,
    declaration (Parsed.fuelFor (w ++ [semicolon])) (start (w ++ [semicolon]) n) =
      .failed e { s with nextId := s.nextId + n } := by
  obtain ⟨s₀, hs₀⟩ := h.dropped
  unfold recover at hs₀
  cases hd : declaration (Parsed.fuelFor (w ++ [semicolon])) (start (w ++ [semicolon]) 0) with
  | done stmt s => rw [hd] at hs₀; cases hs₀
  | exhausted => rw [hd] at hs₀; cases hs₀
  | failed e s =>
    refine ⟨e, s, fun n => ?_⟩
    have hnatural := (stmtNatural id n (Parsed.fuelFor (w ++ [semicolon]))).declaration (start (w ++ [semicolon]) 0)
    rw [hd] at hnatural
    have hsame : ∀ s : State, s.relabel id n = { s with nextId := s.nextId + n } := by
      intro s
      have htoken : Token.relined id = id := rfl
      have herror : SyntaxError.relined id = id := rfl
      simp [State.relabel, htoken, herror]
    rw [hsame] at hnatural
    have hstart : { start (w ++ [semicolon]) 0 with nextId := 0 + n } = start (w ++ [semicolon]) n := by
      rw [Nat.zero_add]
      rfl
    change declaration _ { start (w ++ [semicolon]) 0 with nextId := 0 + n } = .failed e (s.relabel id n) at hnatural
    rw [hstart, hsame] at hnatural
    exact hnatural

theorem tail_subset {v : List Token} (hv : v <:+ w) {t : Token} (ht : t ∈ v.tail) : t ∈ w.tail := by
  obtain ⟨u, rfl⟩ := hv
  cases u with
  | nil => exact ht
  | cons x u => exact List.mem_append_right u (List.mem_of_mem_tail ht)

/-- Reading resumes right behind the segment. -/
theorem resumes (h : BadSegment w semicolon) : ∃ es k, ∀ (st : State) fuel rest n,
    (recover (declaration fuel) (st.on (w ++ semicolon :: rest) n)).Gives none
      ((st.reporting es).on rest (n + k)) := by
  obtain ⟨e, s, hs⟩ := h.fails
  refine ⟨(s.errors.push e).toList, s.nextId, fun st fuel rest n => ?_⟩
  obtain ⟨finish, hstart⟩ := h.start_eq n
  have hcloses := declaration_closes h.quiet (Parsed.fuelFor (w ++ [semicolon])) fuel
    (start (w ++ [semicolon]) n) (st.on rest n) (by rw [hstart]; exact ⟨w, List.suffix_refl w, rfl⟩)
  have hbefore : (start (w ++ [semicolon]) n).before (st.on rest n) = st.on (w ++ semicolon :: rest) n := by
    rw [hstart]
    simp [State.before, State.on]
  rw [hs n, hbefore] at hcloses
  unfold recover
  rcases hcloses with hx | ⟨⟨v, hv, htokens⟩, hx⟩
  · rw [hx]
    exact .inl rfl
  · rw [hx]
    have htokens : s.tokens = v ++ [semicolon] := htokens
    have hresume : resume (s.tokens ++ rest) = rest := by
      rw [htokens, List.append_assoc]
      refine resume_segment h.closed (fun t ht => ?_) fun t ht => h.later t (tail_subset hv ht)
      exact (h.quiet.inside t (hv.subset ht)).1
    have herrors : (st.errors ++ s.errors).push e = st.errors ++ (s.errors.push e).toList.toArray := by
      apply Array.toList_inj.1
      simp
    right
    simp only [State.before, State.on, State.reporting, hresume, herrors, Nat.add_comm n]

/-- A segment begins with something that neither ends declarations nor goes with what is before it. -/
theorem head (h : BadSegment w semicolon) : Heads (w ++ [semicolon]) continues := by
  cases w with
  | nil => exact ⟨semicolon, [], rfl, by rw [h.closed]; rfl⟩
  | cons t v =>
    have helse := (h.first t rfl).1
    have hbrace := (h.inside t List.mem_cons_self).2.2.2
    exact ⟨t, v ++ [semicolon], rfl, by simp [continues, helse, hbrace]⟩

/-- The errors of the segment are those that it yields by itself. -/
theorem skipped (h : BadSegment w semicolon) :
    Skipped (w ++ [semicolon]) (Parsed.ofTokens (w ++ [semicolon]) 0).errors := by
  obtain ⟨es, k, hresumes⟩ := h.resumes
  have hskip : ∀ (s : State) fuel rest n, (recover (declaration fuel) (s.on (w ++ [semicolon] ++ rest) n)).Gives none
      ((s.reporting es).on rest (n + k)) := by
    intro s fuel rest n
    rw [List.append_assoc]
    exact hresumes s fuel rest n
  have halone : Parsed.ofTokens (w ++ [semicolon]) 0 = ⟨[], es, 0 + k⟩ := by
    apply ofTokens_of_reporting
    intro st fuel
    rw [h.takeWhile_eq]
    have hend : EndsDeclarations false [] := rfl
    have hread := declarations_skip h.head (fun fuel => hskip st fuel [] 0)
      (declarations_end hend (st.reporting es) (0 + k)) fuel
    rwa [List.append_nil] at hread
  rw [halone]
  exact ⟨h.head, k, hskip⟩

end BadSegment

end LoxLang.Parse
