import LoxLang.Proofs.Grammar.Completeness.Expressions

namespace LoxLang

/-- The identities in a statement. -/
def Stmt.ids (s : Stmt) : List OccurrenceId := s.occurrences.map Occurrence.id

def Stmt.idsAll (ss : List Stmt) : List OccurrenceId := (Stmt.occurrencesAll ss).map Occurrence.id

def Function.ids (f : Function) : List OccurrenceId := f.occurrences.map Occurrence.id

def Function.idsAll (fs : List Function) : List OccurrenceId := (Function.occurrencesAll fs).map Occurrence.id

namespace Parse
open Grammar

variable {α β : Type}

section

variable {s : State} {t : Token} {p : Token → Bool} {rest : List Token} {n : OccurrenceId} {fuel : Nat}

/-- Whether a token is accepted is decided by that token. -/
theorem accept?_cons {f : Option Token → Parse β} :
    (accept? p >>= f) (s.on (t :: rest) n) =
      if p t then f (some t) (s.on rest n) else f none (s.on (t :: rest) n) := by
  split
  · next h => exact accept?_taken h
  · next h => exact accept?_left (by rintro u ⟨⟩; simpa using h)

theorem accept_cons {f : Bool → Parse β} :
    (accept p >>= f) (s.on (t :: rest) n) =
      if p t then f true (s.on rest n) else f false (s.on (t :: rest) n) := by
  split
  · next h => exact accept_taken h
  · next h => exact accept_left (by rintro u ⟨⟩; simpa using h)

/-- The first token of a statement decides which reader goes on, here for a loop with clauses. -/
theorem statement_for (h : t.kind = .keyword .for_) :
    statement (fuel + 1) (s.on (t :: rest) n) = forStatement fuel (s.on rest n) := by
  simp [statement, accept_cons, Token.isKeyword, h]

theorem statement_if (h : t.kind = .keyword .if_) :
    statement (fuel + 1) (s.on (t :: rest) n) = ifStatement fuel (s.on rest n) := by
  simp [statement, accept_cons, Token.isKeyword, h]

theorem statement_print (h : t.kind = .keyword .print_) :
    statement (fuel + 1) (s.on (t :: rest) n) = printStatement fuel (s.on rest n) := by
  simp [statement, accept_cons, Token.isKeyword, h]

theorem statement_return (h : t.kind = .keyword .return_) :
    statement (fuel + 1) (s.on (t :: rest) n) = returnStatement fuel t (s.on rest n) := by
  simp [statement, accept_cons, accept?_cons, Token.isKeyword, h]

theorem statement_while (h : t.kind = .keyword .while_) :
    statement (fuel + 1) (s.on (t :: rest) n) = whileStatement fuel (s.on rest n) := by
  simp [statement, accept_cons, accept?_cons, Token.isKeyword, h]

theorem statement_break (h : t.kind = .keyword .break_) :
    statement (fuel + 1) (s.on (t :: rest) n) = breakStatement t (s.on rest n) := by
  simp [statement, accept_cons, accept?_cons, Token.isKeyword, h]

theorem statement_block (h : t.kind = .mark .leftBrace) :
    statement (fuel + 1) (s.on (t :: rest) n) = (Stmt.block <$> block fuel) (s.on rest n) := by
  simp [statement, accept_cons, accept?_cons, Token.isKeyword, Token.isMark, h]

/-- A token that begins something else is not this keyword. -/
theorem not_keyword {k : Keyword} {p : Token.Kind → Bool} (h : p t.kind = true) (hk : p (.keyword k) = false) :
    t.isKeyword k = false := by
  simp only [Token.isKeyword, beq_eq_false_iff_ne]
  rintro he
  simp [he, hk] at h

theorem not_mark {m : Mark} {p : Token.Kind → Bool} (h : p t.kind = true) (hm : p (.mark m) = false) :
    t.isMark m = false := by
  simp only [Token.isMark, beq_eq_false_iff_ne]
  rintro he
  simp [he, hm] at h

/-- What begins an expression begins no other statement, so an expression is read. -/
theorem statement_expression (h : begins .assignment t.kind = true) :
    statement (fuel + 1) (s.on (t :: rest) n) = expressionStatement fuel (s.on (t :: rest) n) := by
  have hfor := not_keyword h (k := .for_) rfl
  have hif := not_keyword h (k := .if_) rfl
  have hprint := not_keyword h (k := .print_) rfl
  have hreturn := not_keyword h (k := .return_) rfl
  have hwhile := not_keyword h (k := .while_) rfl
  have hbreak := not_keyword h (k := .break_) rfl
  have hbrace := not_mark h (m := .leftBrace) rfl
  simp [statement, accept_cons, accept?_cons, *]

theorem declaration_class (h : t.kind = .keyword .class_) :
    declaration (fuel + 1) (s.on (t :: rest) n) = classDeclaration fuel (s.on rest n) := by
  simp [declaration, accept_cons, Token.isKeyword, h]

theorem declaration_function (h : t.kind = .keyword .fun_) :
    declaration (fuel + 1) (s.on (t :: rest) n) =
      (Stmt.function <$> function fuel .function) (s.on rest n) := by
  simp [declaration, accept_cons, Token.isKeyword, h]

theorem declaration_var (h : t.kind = .keyword .var_) :
    declaration (fuel + 1) (s.on (t :: rest) n) = varDeclaration fuel (s.on rest n) := by
  simp [declaration, accept_cons, Token.isKeyword, h]

/-- A statement may begin with a token of this kind. -/
def beginsStatement (k : Token.Kind) : Bool :=
  begins .assignment k ||
    [.keyword .print_, .keyword .return_, .keyword .break_, .keyword .if_, .keyword .while_,
      .keyword .for_, .mark .leftBrace].contains k

/-- What begins a statement begins no declaration, so a statement is read. -/
theorem declaration_statement (h : beginsStatement t.kind = true) :
    declaration (fuel + 1) (s.on (t :: rest) n) = statement fuel (s.on (t :: rest) n) := by
  have hclass := not_keyword h (k := .class_) rfl
  have hfun := not_keyword h (k := .fun_) rfl
  have hvar := not_keyword h (k := .var_) rfl
  simp [declaration, accept_cons, *]

end

/-- An expression before a semicolon has the first token of an expression. -/
theorem exprStmt_heads {w : List Token} {s : Stmt} : ReadsExprStmt w s → Heads w (begins .assignment)
  | .mk h _ => (reads_heads h).append _

/-- A statement has a first token, of a kind that begins statements. -/
theorem stmt_heads {w : List Token} {s : Stmt} {isOpen : Bool} (h : ReadsStmt w s isOpen) :
    Heads w beginsStatement := by
  cases h with
  | expression h => exact (exprStmt_heads h).mono fun k hk => by simp [beginsStatement, hk]
  | print h | «return» h | «break» h | «if» h | ifElse h | «while» h | «for» h =>
    exact ⟨_, _, rfl, by rw [h]; rfl⟩
  | block h =>
    cases h with
    | mk h => exact ⟨_, _, rfl, by rw [h]; rfl⟩

/-- A declaration may begin with a token of this kind. -/
def beginsDeclaration (k : Token.Kind) : Bool :=
  beginsStatement k || [.keyword .class_, .keyword .fun_, .keyword .var_].contains k

/-- A declaration has a first token, of a kind that begins declarations. -/
theorem declaration_heads {w : List Token} {s : Stmt} {isOpen : Bool} (h : ReadsDeclaration w s isOpen) :
    Heads w beginsDeclaration := by
  cases h with
  | «class» h | function h | var h => exact ⟨_, _, rfl, by rw [h]; rfl⟩
  | statement h => exact (stmt_heads h).mono fun k hk => by simp [beginsDeclaration, hk]

def isName (k : Token.Kind) : Bool := k == .identifier

/-- Whatever identity is next, the reader answers as told on the tokens, with identities of its own, if what comes
after them may follow. -/
def ReadsBack (reader : Nat → Parse α) (erased : α → α) (ids : α → List OccurrenceId)
    (follow : List Token → Prop) (w : List Token) (a : α) : Prop :=
  ∀ n, ∃ a' n', erased a' = erased a ∧ GivenOut n n' (ids a') ∧ ∀ (s : State) fuel rest, follow rest →
    (reader fuel (s.on (w ++ rest) n)).Gives a' (s.on rest n')

/-- A token of the kind is next. -/
def Next (k : Token.Kind) (rest : List Token) : Prop := ∃ t u, rest = t :: u ∧ t.kind = k

/-- A declared variable is read, with its initializer if it has one. -/
theorem readsBack_var {w : List Token} {s : Stmt} (h : ReadsVar w s) :
    ReadsBack varDeclaration Stmt.erased Stmt.ids (fun _ => True) w s := by
  intro n
  cases h with
  | @bare name semicolon hn hs =>
    refine ⟨.var name none, n, rfl, .nil n, fun s fuel rest _ => ?_⟩
    unfold varDeclaration
    rw [List.cons_append, expect_taken (by simp [hn]), List.singleton_append, accept_cons,
      if_neg (by simp [Token.isMark, hs]), if_neg (by simp), expect_taken (by simp [hs])]
    exact .done _ _
  | @initialized name equals semicolon w e hn hq he hs =>
    obtain ⟨e', n', hee, hg, hc⟩ := expr_readBack he n
    refine ⟨.var name (some e'), n', by simpa [Stmt.relabel] using hee, hg, fun s fuel rest _ => ?_⟩
    unfold varDeclaration
    rw [List.cons_append, expect_taken (by simp [hn]), List.cons_append, accept_taken (by simp [hq]),
      if_pos rfl, List.append_assoc]
    refine .bind (hc s fuel _ (stops_cons hs rfl)) ?_
    rw [List.singleton_append, expect_taken (by simp [hs])]
    exact .done _ _

/-- An expression and its semicolon are read, whatever comes behind. -/
theorem readsBack_exprStmt {w : List Token} {s : Stmt} (h : ReadsExprStmt w s) :
    ReadsBack expressionStatement Stmt.erased Stmt.ids (fun _ => True) w s := by
  intro n
  obtain ⟨he, hs⟩ := h
  obtain ⟨e', n', hee, hg, hc⟩ := expr_readBack he n
  refine ⟨.expression e', n', by simpa [Stmt.relabel] using hee, hg, fun s fuel rest _ => ?_⟩
  unfold expressionStatement
  rw [List.append_assoc]
  refine .bind (hc s fuel _ (stops_cons hs rfl)) ?_
  rw [List.singleton_append, expect_taken (by simp [hs])]
  exact .done _ _

/-- The identities in a part that may be left out. -/
def idsIn (ids : α → List OccurrenceId) : Option α → List OccurrenceId
  | none => []
  | some a => ids a

/-- The first clause of a loop is a variable, an expression or empty, and ends with its semicolon. -/
theorem readsBack_forStart {w : List Token} {start : Option Stmt} (h : ReadsForStart w start) :
    ReadsBack forInitializer (Option.map Stmt.erased) (idsIn Stmt.ids) (fun _ => True) w start := by
  intro n
  cases h with
  | none hs =>
    refine ⟨none, n, rfl, .nil n, fun s fuel rest _ => ?_⟩
    unfold forInitializer
    rw [List.singleton_append, accept_taken (by simp [hs]), if_pos rfl]
    exact .done _ _
  | @var var w s hv h =>
    obtain ⟨s', n', hes, hg, hc⟩ := readsBack_var h n
    refine ⟨some s', n', by simpa using hes, hg, fun s fuel rest _ => ?_⟩
    unfold forInitializer
    rw [List.cons_append, accept_cons, if_neg (by simp [Token.isMark, hv]), if_neg (by simp),
      accept_taken (by simp [hv]), if_pos rfl]
    exact .map _ (hc s fuel rest trivial)
  | @expression _ s h =>
    obtain ⟨s', n', hes, hg, hc⟩ := readsBack_exprStmt h n
    refine ⟨some s', n', by simpa using hes, hg, fun s fuel rest _ => ?_⟩
    have hw := (exprStmt_heads h).append rest
    unfold forInitializer
    rw [accept_left (hw.not fun t ht => not_mark ht rfl), if_neg (by simp),
      accept_left (hw.not fun t ht => not_keyword ht rfl), if_neg (by simp)]
    exact .map _ (hc s fuel rest trivial)

/-- A part that may be left out is read, or nothing if the mark behind it comes at once. -/
theorem readsBack_optional {w : List Token} {e : Option Expr} {m : Mark}
    (hb : begins .assignment (.mark m) = false) (hm : absorbs .assignment (.mark m) = false)
    (h : ReadsOptional w e) :
    ReadsBack (expressionUnless · (·.isMark m)) (Option.map Expr.erased) (idsIn ids) (Next (.mark m)) w e := by
  intro n
  cases h with
  | none =>
    refine ⟨none, n, rfl, .nil n, ?_⟩
    rintro s fuel _ ⟨t, u, rfl, ht⟩
    dsimp only [expressionUnless]
    rw [List.nil_append, next_true (by simp [ht]), if_pos rfl]
    exact .done _ _
  | some h =>
    obtain ⟨e', n', hee, hg, hc⟩ := expr_readBack h n
    refine ⟨some e', n', by simpa using hee, hg, ?_⟩
    rintro s fuel _ ⟨t, u, rfl, ht⟩
    dsimp only [expressionUnless]
    rw [next_false (((reads_heads h).append _).not fun t ht => not_mark ht hb), if_neg (by simp)]
    exact .map _ (hc s fuel _ (stops_cons ht hm))

/-- Parameters are read up to the closing parenthesis, if there are no more than may be. -/
theorem parametersFrom_complete {w ps : List Token} (h : ReadsSomeParameters w ps) (s : State) (n fuel count : Nat)
    {rest : List Token} (hr : Next (.mark .rightParen) rest) (hl : count + ps.length ≤ maxArity) :
    (parametersFrom fuel count (s.on (w ++ rest) n)).Gives ps (s.on rest n) := by
  induction h generalizing fuel count with
  | one hp =>
    obtain ⟨t, u, rfl, ht⟩ := hr
    cases fuel with
    | zero => exact .inl rfl
    | succ fuel =>
      simp only [List.length_cons, List.length_nil] at hl
      unfold parametersFrom
      rw [if_neg (by omega)]
      dsimp only
      rw [List.singleton_append, expect_taken (by simp [hp]), accept_cons, if_neg (by simp [Token.isMark, ht]),
        if_neg (by simp)]
      exact .done _ _
  | cons hp hc _ ih =>
    cases fuel with
    | zero => exact .inl rfl
    | succ fuel =>
      simp only [List.length_cons] at hl
      unfold parametersFrom
      rw [if_neg (by omega)]
      dsimp only
      rw [List.cons_append, expect_taken (by simp [hp]), List.cons_append, accept_taken (by simp [hc]), if_pos rfl]
      exact .bind (ih fuel (count + 1) (by omega)) (.done _ _)

theorem parameters_complete {w ps : List Token} (h : ReadsParameters w ps) (s : State) (n fuel : Nat)
    {rest : List Token} (hr : Next (.mark .rightParen) rest) :
    (parameters fuel (s.on (w ++ rest) n)).Gives ps (s.on rest n) := by
  unfold parameters
  cases h with
  | nil =>
    obtain ⟨t, u, rfl, ht⟩ := hr
    rw [List.nil_append, next_true (by simp [ht]), if_pos rfl]
    exact .done _ _
  | some h hl =>
    have hw : Heads w isName := by
      cases h with
      | one hp | cons hp => exact ⟨_, _, rfl, by rw [hp]; rfl⟩
    rw [next_false ((hw.append _).not fun t ht => not_mark ht rfl), if_neg (by simp)]
    exact parametersFrom_complete h s n fuel 0 hr (by omega)

/-- The state with more reported. -/
def State.reporting (s : State) (es : List SyntaxError) : State := { s with errors := s.errors ++ es.toArray }

@[simp]
theorem State.reporting_nil (s : State) : s.reporting [] = s := by simp [reporting]

/-- Errors reported one after another are reported together. -/
theorem State.reporting_append (s : State) (es es' : List SyntaxError) :
    s.reporting (es ++ es') = (s.reporting es).reporting es' := by
  simp [reporting, ← List.append_toArray, Array.append_assoc]

/-- Like `ReadsBack` for tokens with segments between them, for which the errors told are reported. -/
def ReadsThrough (reader : Nat → Parse α) (erased : α → α) (ids : α → List OccurrenceId)
    (follow : List Token → Prop) (w : List Token) (a : α) (es : List SyntaxError) : Prop :=
  ∀ n, ∃ a' n', erased a' = erased a ∧ GivenOut n n' (ids a') ∧ ∀ (s : State) fuel rest, follow rest →
    (reader fuel (s.on (w ++ rest) n)).Gives a' ((s.reporting es).on rest n')

/-- Without segments in between, reading through tokens is reading them. -/
theorem readsThrough_nil_iff {reader : Nat → Parse α} {erased : α → α} {ids : α → List OccurrenceId}
    {follow : List Token → Prop} {w : List Token} {a : α} :
    ReadsThrough reader erased ids follow w a [] ↔ ReadsBack reader erased ids follow w a := by
  simp only [ReadsThrough, ReadsBack, State.reporting_nil]

/-- A token of this kind neither ends declarations nor goes with what is before it. -/
def continues (k : Token.Kind) : Bool := k != .keyword .else_ && k != .mark .rightBrace

/-- A declaration does not begin with the word that an open statement would take. -/
theorem noElse_heads {w : List Token} (h : Heads w continues) (rest : List Token) : NoElse (w ++ rest) := by
  obtain ⟨t, u, rfl, ht⟩ := h
  intro t' ht'
  cases ht'
  intro he
  simp [continues, he] at ht

/-- Where a declaration comes, the declarations are not at their end. -/
theorem atEnd_continues {w : List Token} (h : Heads w continues) (inBraces : Bool) (s : State) (rest : List Token)
    (n : OccurrenceId) : atEnd inBraces (s.on (w ++ rest) n) = .done false (s.on (w ++ rest) n) := by
  obtain ⟨t, u, rfl, ht⟩ := h
  simp [atEnd, State.on, not_mark ht (m := .rightBrace) rfl]

/-- No declaration begins with a closing brace or with the word that goes with a condition. -/
theorem beginsDeclaration_continues {k : Token.Kind} (h : beginsDeclaration k = true) : continues k = true := by
  unfold continues
  by_cases he : k = .keyword .else_
  · simp [he, beginsDeclaration, beginsStatement, begins, beginsPrimary] at h
  · by_cases hb : k = .mark .rightBrace
    · simp [hb, beginsDeclaration, beginsStatement, begins, beginsPrimary] at h
    · simp [he, hb]

/-- Wherever the segment stands between declarations, it is dropped and the errors told are reported. -/
structure Skipped (u : List Token) (es : List SyntaxError) : Prop where
  head : Heads u continues
  skips : ∃ k, ∀ (s : State) fuel rest n,
    (recover (declaration fuel) (s.on (u ++ rest) n)).Gives none ((s.reporting es).on rest (n + k))

/-- What may follow a statement. -/
def Follows (isOpen : Bool) (rest : List Token) : Prop := isOpen = true → NoElse rest

abbrev StatementBack (w : List Token) (s : Stmt) (isOpen : Bool) (es : List SyntaxError) : Prop :=
  ReadsThrough statement Stmt.erased Stmt.ids (Follows isOpen) w s es

abbrev DeclarationBack (w : List Token) (s : Stmt) (isOpen : Bool) (es : List SyntaxError) : Prop :=
  ReadsThrough declaration Stmt.erased Stmt.ids (Follows isOpen) w s es

/-- The end of the source or, inside braces, the closing brace. -/
def EndsDeclarations (inBraces : Bool) (rest : List Token) : Prop :=
  if inBraces then Next (.mark .rightBrace) rest else rest = []

/-- At the end of declarations nothing comes that an open statement would take. -/
theorem EndsDeclarations.noElse {inBraces : Bool} {rest : List Token} (h : EndsDeclarations inBraces rest) :
    NoElse rest := by
  intro t ht
  cases inBraces with
  | false =>
    cases h
    cases ht
  | true =>
    obtain ⟨u, v, rfl, hu⟩ := h
    cases ht
    simp [hu]

abbrev DeclarationsBack (w : List Token) (ss : List Stmt) (es : List SyntaxError) : Prop :=
  ∀ inBraces, ReadsThrough (declarations · inBraces) Stmt.erasedAll Stmt.idsAll (EndsDeclarations inBraces) w ss es

/-- Read after the opening brace. -/
abbrev BlockBack (w : List Token) (ss : List Stmt) (es : List SyntaxError) : Prop :=
  ReadsThrough block Stmt.erasedAll Stmt.idsAll (fun _ => True) w ss es

abbrev FunctionBack (w : List Token) (f : Function) (es : List SyntaxError) : Prop :=
  ∀ callable, ReadsThrough (function · callable) Function.erased Function.ids (fun _ => True) w f es

abbrev MethodsBack (w : List Token) (fs : List Function) (es : List SyntaxError) : Prop :=
  ReadsThrough methods Function.erasedAll Function.idsAll (Next (.mark .rightBrace)) w fs es

namespace StatementBack

theorem expression {w : List Token} {s : Stmt} (h : ReadsExprStmt w s) : StatementBack w s false [] := by
  apply readsThrough_nil_iff.2
  intro n
  obtain ⟨s', n', hes, hg, hc⟩ := readsBack_exprStmt h n
  refine ⟨s', n', hes, hg, fun st fuel rest _ => ?_⟩
  obtain ⟨t, u, rfl, ht⟩ := exprStmt_heads h
  cases fuel with
  | zero => exact .inl rfl
  | succ fuel =>
    rw [List.cons_append, statement_expression ht]
    exact hc st fuel rest trivial

theorem print {print semicolon : Token} {w : List Token} {e : Expr} (hp : print.kind = .keyword .print_)
    (h : ReadsExpr .assignment w e) (hs : semicolon.kind = .mark .semicolon) :
    StatementBack (print :: (w ++ [semicolon])) (.print e) false [] := by
  apply readsThrough_nil_iff.2
  intro n
  obtain ⟨e', n', hee, hg, hc⟩ := expr_readBack h n
  refine ⟨.print e', n', by simpa [Stmt.relabel] using hee, hg, fun st fuel rest _ => ?_⟩
  cases fuel with
  | zero => exact .inl rfl
  | succ fuel =>
    rw [List.cons_append, statement_print hp, printStatement, List.append_assoc]
    refine .bind (hc st fuel _ (stops_cons hs rfl)) ?_
    rw [List.singleton_append, expect_taken (by simp [hs])]
    exact .done _ _

theorem «return» {return_ semicolon : Token} {w : List Token} {value : Option Expr}
    (hr : return_.kind = .keyword .return_) (h : ReadsOptional w value)
    (hs : semicolon.kind = .mark .semicolon) :
    StatementBack (return_ :: (w ++ [semicolon])) (.return return_ value) false [] := by
  apply readsThrough_nil_iff.2
  intro n
  obtain ⟨e', n', hee, hg, hc⟩ := readsBack_optional (m := .semicolon) rfl rfl h n
  refine ⟨.return return_ e', n', by simpa [Stmt.relabel] using hee, ?_, fun st fuel rest _ => ?_⟩
  · cases e' <;> exact hg
  cases fuel with
  | zero => exact .inl rfl
  | succ fuel =>
    rw [List.cons_append, statement_return hr, returnStatement, List.append_assoc]
    refine .bind (hc st fuel _ ⟨_, _, rfl, hs⟩) ?_
    rw [List.singleton_append, expect_taken (by simp [hs])]
    exact .done _ _

theorem «break» {break_ semicolon : Token} (hb : break_.kind = .keyword .break_)
    (hs : semicolon.kind = .mark .semicolon) : StatementBack [break_, semicolon] (.break break_) false [] := by
  apply readsThrough_nil_iff.2
  refine fun n => ⟨.break break_, n, rfl, .nil n, fun st fuel rest _ => ?_⟩
  cases fuel with
  | zero => exact .inl rfl
  | succ fuel =>
    rw [List.cons_append, statement_break hb, breakStatement, List.singleton_append,
      expect_taken (by simp [hs])]
    exact .done _ _

/-- Without a second branch a condition stays open: it is read to its end only if no second branch comes. -/
theorem «if» {if_ left right : Token} {v w : List Token} {c : Expr} {yes : Stmt} {isOpen : Bool}
    {es : List SyntaxError} (hi : if_.kind = .keyword .if_) (hl : left.kind = .mark .leftParen)
    (h : ReadsExpr .assignment v c) (hr : right.kind = .mark .rightParen) (hyes : StatementBack w yes isOpen es) :
    StatementBack (if_ :: left :: (v ++ right :: w)) (.branch c yes none) true es := by
  intro n
  obtain ⟨c', m, hec, hgc, hcc⟩ := expr_readBack h n
  obtain ⟨yes', n', hey, hgy, hcy⟩ := hyes m
  refine ⟨.branch c' yes' none, n', by simp_all [Stmt.relabel], ?_, fun st fuel rest hrest => ?_⟩
  · simpa [Stmt.ids, ids, Stmt.occurrences] using hgc.append hgy
  have helse : ∀ t ∈ rest.head?, t.isKeyword .else_ = false := by
    simpa [Token.isKeyword, NoElse] using hrest rfl
  cases fuel with
  | zero => exact .inl rfl
  | succ fuel =>
    rw [List.cons_append, statement_if hi]
    cases fuel with
    | zero => exact .inl rfl
    | succ fuel =>
      rw [ifStatement, List.cons_append, expect_taken (by simp [hl]), List.append_assoc]
      refine .bind (hcc st fuel _ (stops_cons hr rfl)) ?_
      rw [List.cons_append, expect_taken (by simp [hr])]
      refine .bind (hcy st fuel rest fun _ => hrest rfl) ?_
      rw [accept_left helse, if_neg (by simp)]
      exact .done _ _

/-- The second branch goes with the condition that was met last, because the first branch has to be closed. -/
theorem ifElse {if_ left right else_ : Token} {u v w : List Token} {c : Expr} {yes no : Stmt} {isOpen : Bool}
    {es es' : List SyntaxError} (hi : if_.kind = .keyword .if_) (hl : left.kind = .mark .leftParen)
    (h : ReadsExpr .assignment u c) (hr : right.kind = .mark .rightParen) (hyes : StatementBack v yes false es)
    (he : else_.kind = .keyword .else_) (hno : StatementBack w no isOpen es') :
    StatementBack (if_ :: left :: (u ++ right :: (v ++ else_ :: w))) (.branch c yes (some no)) isOpen
      (es ++ es') := by
  intro n
  obtain ⟨c', m, hec, hgc, hcc⟩ := expr_readBack h n
  obtain ⟨yes', k, hey, hgy, hcy⟩ := hyes m
  obtain ⟨no', n', hen, hgn, hcn⟩ := hno k
  refine ⟨.branch c' yes' (some no'), n', by simp_all [Stmt.relabel], ?_, fun st fuel rest hrest => ?_⟩
  · simpa [Stmt.ids, ids, Stmt.occurrences] using hgc.append (hgy.append hgn)
  cases fuel with
  | zero => exact .inl rfl
  | succ fuel =>
    rw [List.cons_append, statement_if hi]
    cases fuel with
    | zero => exact .inl rfl
    | succ fuel =>
      rw [ifStatement, List.cons_append, expect_taken (by simp [hl]), List.append_assoc]
      refine .bind (hcc st fuel _ (stops_cons hr rfl)) ?_
      rw [List.cons_append, expect_taken (by simp [hr]), List.append_assoc]
      refine .bind (hcy st fuel _ fun hf => by cases hf) ?_
      rw [List.cons_append, accept_taken (by simp [he]), if_pos rfl]
      rw [State.reporting_append]
      exact .bind (hcn (st.reporting es) fuel rest hrest) (.done _ _)

theorem «while» {while_ left right : Token} {v w : List Token} {c : Expr} {body : Stmt} {isOpen : Bool}
    {es : List SyntaxError} (hw : while_.kind = .keyword .while_) (hl : left.kind = .mark .leftParen)
    (h : ReadsExpr .assignment v c) (hr : right.kind = .mark .rightParen) (hbody : StatementBack w body isOpen es) :
    StatementBack (while_ :: left :: (v ++ right :: w)) (.loop c body) isOpen es := by
  intro n
  obtain ⟨c', m, hec, hgc, hcc⟩ := expr_readBack h n
  obtain ⟨body', n', heb, hgb, hcb⟩ := hbody m
  refine ⟨.loop c' body', n', by simp_all [Stmt.relabel], ?_, fun st fuel rest hrest => ?_⟩
  · simpa [Stmt.ids, ids, Stmt.occurrences] using hgc.append hgb
  cases fuel with
  | zero => exact .inl rfl
  | succ fuel =>
    rw [List.cons_append, statement_while hw]
    cases fuel with
    | zero => exact .inl rfl
    | succ fuel =>
      rw [whileStatement, List.cons_append, expect_taken (by simp [hl]), List.append_assoc]
      refine .bind (hcc st fuel _ (stops_cons hr rfl)) ?_
      rw [List.cons_append, expect_taken (by simp [hr])]
      exact .bind (hcb st fuel rest hrest) (.done _ _)

/-- The identities in a `for` are given out in the order of its text, where the increment stands before the
body. -/
theorem ids_for_perm (start : Option Stmt) (c increment : Option Expr) (body : Stmt) :
    (idsIn Stmt.ids start ++ (idsIn ids c ++ (idsIn ids increment ++ body.ids))).Perm
      (Stmt.ids (withStart start
        (.loop (c.getD (.literal (.bool true))) (withIncrement increment body)))) := by
  have hbody : (idsIn ids increment ++ body.ids).Perm (withIncrement increment body).ids := by
    cases increment with
    | none => exact .refl _
    | some e =>
      simpa [withIncrement, idsIn, Stmt.ids, ids, Stmt.occurrences, Stmt.occurrencesAll]
        using List.perm_append_comm
  have hc : ids (c.getD (.literal (.bool true))) = idsIn ids c := by cases c <;> rfl
  have hloop : (idsIn ids c ++ (idsIn ids increment ++ body.ids)).Perm
      (Stmt.ids (.loop (c.getD (.literal (.bool true))) (withIncrement increment body))) := by
    have : Stmt.ids (.loop (c.getD (.literal (.bool true))) (withIncrement increment body)) =
        idsIn ids c ++ (withIncrement increment body).ids := by
      rw [← hc]
      simp [Stmt.ids, ids, Stmt.occurrences]
    rw [this]
    exact hbody.append_left _
  cases start with
  | none => exact hloop
  | some s =>
    have : Stmt.ids (withStart (some s)
        (.loop (c.getD (.literal (.bool true))) (withIncrement increment body))) = s.ids ++
        Stmt.ids (.loop (c.getD (.literal (.bool true))) (withIncrement increment body)) := by
      simp [withStart, Stmt.ids, Stmt.occurrences, Stmt.occurrencesAll]
    rw [this]
    exact hloop.append_left _

/-- The loop built from clauses is the same but for identities if its clauses are. -/
theorem erased_for {start start' : Option Stmt} {c c' increment increment' : Option Expr} {body body' : Stmt}
    (hs : start'.map Stmt.erased = start.map Stmt.erased) (hc : c'.map Expr.erased = c.map Expr.erased)
    (hi : increment'.map Expr.erased = increment.map Expr.erased) (hb : body'.erased = body.erased) :
    (withStart start' (.loop (c'.getD (.literal (.bool true))) (withIncrement increment' body'))).erased =
      (withStart start (.loop (c.getD (.literal (.bool true))) (withIncrement increment body))).erased := by
  have hbody : (withIncrement increment' body').erased = (withIncrement increment body).erased := by
    cases increment <;> cases increment' <;> simp_all [withIncrement, Stmt.relabel, Stmt.relabelAll]
  have hcond : (c'.getD (.literal (.bool true))).erased = (c.getD (.literal (.bool true))).erased := by
    cases c <;> cases c' <;> simp_all
  cases start <;> cases start' <;> simp_all [withStart, Stmt.relabel, Stmt.relabelAll]

/-- The clauses are read in the order of the text and the loop is built from them. Its identities are all there, in
another order. -/
theorem «for» {for_ left semicolon right : Token} {t u v w : List Token} {start : Option Stmt}
    {c increment : Option Expr} {body : Stmt} {isOpen : Bool} {es : List SyntaxError}
    (hf : for_.kind = .keyword .for_) (hl : left.kind = .mark .leftParen) (hstart : ReadsForStart t start)
    (hc : ReadsOptional u c) (hs : semicolon.kind = .mark .semicolon) (hi : ReadsOptional v increment)
    (hr : right.kind = .mark .rightParen) (hbody : StatementBack w body isOpen es) :
    StatementBack (for_ :: left :: (t ++ (u ++ semicolon :: (v ++ right :: w))))
      (withStart start (.loop (c.getD (.literal (.bool true))) (withIncrement increment body))) isOpen es := by
  intro n
  obtain ⟨start', i, hes, hgs, hcs⟩ := readsBack_forStart hstart n
  obtain ⟨c', j, hec, hgc, hcc⟩ := readsBack_optional (m := .semicolon) rfl rfl hc i
  obtain ⟨inc', k, hei, hgi, hci⟩ := readsBack_optional (m := .rightParen) rfl rfl hi j
  obtain ⟨body', n', heb, hgb, hcb⟩ := hbody k
  refine ⟨_, n', erased_for hes hec hei heb,
    (hgs.append (hgc.append (hgi.append hgb))).perm (ids_for_perm ..), fun st fuel rest hrest => ?_⟩
  cases fuel with
  | zero => exact .inl rfl
  | succ fuel =>
    rw [List.cons_append, statement_for hf]
    cases fuel with
    | zero => exact .inl rfl
    | succ fuel =>
      rw [forStatement, List.cons_append, expect_taken (by simp [hl]), List.append_assoc]
      refine .bind (hcs st fuel _ trivial) ?_
      rw [List.append_assoc]
      refine .bind (hcc st fuel _ ⟨_, _, rfl, hs⟩) ?_
      rw [List.cons_append, expect_taken (by simp [hs]), List.append_assoc]
      refine .bind (hci st fuel _ ⟨_, _, rfl, hr⟩) ?_
      rw [List.cons_append, expect_taken (by simp [hr])]
      refine .bind (hcb st fuel rest hrest) ?_
      rw [forLoop_eq]
      exact .done _ _

theorem block {left : Token} {w : List Token} {body : List Stmt} {es : List SyntaxError}
    (hl : left.kind = .mark .leftBrace) (h : BlockBack w body es) :
    StatementBack (left :: w) (.block body) false es := by
  intro n
  obtain ⟨body', n', he, hg, hc⟩ := h n
  refine ⟨.block body', n', by simpa [Stmt.relabel] using he, hg,
    fun st fuel rest _ => ?_⟩
  cases fuel with
  | zero => exact .inl rfl
  | succ fuel =>
    rw [List.cons_append, statement_block hl]
    exact .map _ (hc st fuel rest trivial)

end StatementBack

/-- A block is declarations and a closing brace. -/
theorem BlockBack.of_declarations {right : Token} {w : List Token} {body : List Stmt} {es : List SyntaxError}
    (h : DeclarationsBack w body es) (hr : right.kind = .mark .rightBrace) : BlockBack (w ++ [right]) body es := by
  intro n
  obtain ⟨body', n', he, hg, hc⟩ := h true n
  refine ⟨body', n', he, hg, fun st fuel rest _ => ?_⟩
  cases fuel with
  | zero => exact .inl rfl
  | succ fuel =>
    rw [block, List.append_assoc]
    refine .bind (hc st fuel _ ⟨_, _, rfl, hr⟩) ?_
    rw [List.singleton_append, expect_taken (by simp [hr])]
    exact .done _ _

namespace DeclarationBack

/-- Methods are read up to the closing brace of their class. -/
theorem «class» {class_ name left right : Token} {w : List Token} {declared : List Function}
    {es : List SyntaxError} (hk : class_.kind = .keyword .class_) (hn : name.kind = .identifier)
    (hl : left.kind = .mark .leftBrace) (h : MethodsBack w declared es) (hr : right.kind = .mark .rightBrace) :
    DeclarationBack (class_ :: name :: left :: (w ++ [right])) (.class name declared) false es := by
  intro n
  obtain ⟨fs', n', he, hg, hc⟩ := h n
  refine ⟨.class name fs', n', by simpa [Stmt.relabel] using he, hg,
    fun st fuel rest _ => ?_⟩
  cases fuel with
  | zero => exact .inl rfl
  | succ fuel =>
    rw [List.cons_append, declaration_class hk]
    cases fuel with
    | zero => exact .inl rfl
    | succ fuel =>
      rw [classDeclaration, List.cons_append, expect_taken (by simp [hn]), List.cons_append,
        expect_taken (by simp [hl]), List.append_assoc]
      refine .bind (hc st fuel _ ⟨_, _, rfl, hr⟩) ?_
      rw [List.singleton_append, expect_taken (by simp [hr])]
      exact .done _ _

theorem function {fun_ : Token} {w : List Token} {f : Function} {es : List SyntaxError}
    (hk : fun_.kind = .keyword .fun_) (h : FunctionBack w f es) :
    DeclarationBack (fun_ :: w) (.function f) false es := by
  intro n
  obtain ⟨f', n', he, hg, hc⟩ := h .function n
  refine ⟨.function f', n', by simpa [Stmt.relabel] using he, hg,
    fun st fuel rest _ => ?_⟩
  cases fuel with
  | zero => exact .inl rfl
  | succ fuel =>
    rw [List.cons_append, declaration_function hk]
    exact .map _ (hc st fuel rest trivial)

theorem var {var : Token} {w : List Token} {s : Stmt} (hk : var.kind = .keyword .var_) (h : ReadsVar w s) :
    DeclarationBack (var :: w) s false [] := by
  apply readsThrough_nil_iff.2
  intro n
  obtain ⟨s', n', he, hg, hc⟩ := readsBack_var h n
  refine ⟨s', n', he, hg, fun st fuel rest _ => ?_⟩
  cases fuel with
  | zero => exact .inl rfl
  | succ fuel =>
    rw [List.cons_append, declaration_var hk]
    exact hc st fuel rest trivial

/-- A statement where a declaration may stand. -/
theorem statement {w : List Token} {s : Stmt} {isOpen : Bool} {es : List SyntaxError}
    (hw : Heads w beginsStatement) (h : StatementBack w s isOpen es) : DeclarationBack w s isOpen es := by
  intro n
  obtain ⟨s', n', he, hg, hc⟩ := h n
  refine ⟨s', n', he, hg, fun st fuel rest hrest => ?_⟩
  obtain ⟨t, u, rfl, ht⟩ := hw
  cases fuel with
  | zero => exact .inl rfl
  | succ fuel =>
    rw [List.cons_append, declaration_statement ht]
    exact hc st fuel rest hrest

end DeclarationBack

/-- What comes at the end of declarations or at the beginning of one is no `else`. -/
theorem noElse_declarations {w rest : List Token} {ss : List Stmt} {inBraces : Bool}
    (h : ReadsDeclarations w ss) (hr : EndsDeclarations inBraces rest) : NoElse (w ++ rest) := by
  cases h with
  | nil => exact hr.noElse
  | cons h _ =>
    rw [List.append_assoc]
    exact noElse_heads ((declaration_heads h).mono fun k hk => beginsDeclaration_continues hk) _

/-- A declaration and then others. -/
theorem declarations_cons {st st₁ st' : State} {v rest : List Token} {n m : OccurrenceId} {s : Stmt} {ss : List Stmt}
    {inBraces : Bool} (hv : Heads v continues)
    (h : ∀ fuel, (declaration fuel (st.on (v ++ rest) n)).Gives s (st₁.on rest m))
    (hs : ∀ fuel, (declarations fuel inBraces (st₁.on rest m)).Gives ss st') (fuel : Nat) :
    (declarations fuel inBraces (st.on (v ++ rest) n)).Gives (s :: ss) st' := by
  cases fuel with
  | zero => exact .inl rfl
  | succ fuel =>
    rw [declarations, bind_done (atEnd_continues hv inBraces st rest n), if_neg (by simp)]
    refine Outcome.Gives.bind (a := some s) ?_ (.bind (hs fuel) (.done _ _))
    unfold recover
    rcases h fuel with hx | hx
    · rw [hx]; exact .inl rfl
    · rw [hx]; exact .done _ _

/-- A segment that is dropped and then declarations. -/
theorem declarations_skip {st st' : State} {u rest : List Token} {n m : OccurrenceId} {ss : List Stmt}
    {es : List SyntaxError} {inBraces : Bool} (hu : Heads u continues)
    (h : ∀ fuel, (recover (declaration fuel) (st.on (u ++ rest) n)).Gives none ((st.reporting es).on rest m))
    (hs : ∀ fuel, (declarations fuel inBraces ((st.reporting es).on rest m)).Gives ss st') (fuel : Nat) :
    (declarations fuel inBraces (st.on (u ++ rest) n)).Gives ss st' := by
  cases fuel with
  | zero => exact .inl rfl
  | succ fuel =>
    rw [declarations, bind_done (atEnd_continues hu inBraces st rest n), if_neg (by simp)]
    exact .bind (h fuel) (.bind (hs fuel) (.done _ _))

/-- At the end no more declarations are read. -/
theorem declarations_end {rest : List Token} {inBraces : Bool} (hr : EndsDeclarations inBraces rest) (st : State)
    (n : OccurrenceId) (fuel : Nat) : (declarations fuel inBraces (st.on rest n)).Gives [] (st.on rest n) := by
  cases fuel with
  | zero => exact .inl rfl
  | succ fuel =>
    have hend : atEnd inBraces (st.on rest n) = .done true (st.on rest n) := by
      cases inBraces with
      | false => cases hr; rfl
      | true =>
        obtain ⟨t, u, rfl, ht⟩ := hr
        simp [atEnd, State.on, Token.isMark, ht]
    rw [declarations, bind_done hend, if_pos rfl]
    exact .done _ _

namespace DeclarationsBack

theorem nil : DeclarationsBack [] [] [] := by
  intro inBraces
  apply readsThrough_nil_iff.2
  exact fun n => ⟨[], n, rfl, .nil n, fun st fuel _ hr => declarations_end hr st n fuel⟩

/-- One declaration and then others. The first must not be open towards what begins the next. -/
theorem cons {v w : List Token} {s : Stmt} {ss : List Stmt} {isOpen : Bool} {es es' : List SyntaxError}
    (hs : DeclarationsBack w ss es') (hv : Heads v continues) (h : DeclarationBack v s isOpen es)
    (hw : ∀ inBraces rest, EndsDeclarations inBraces rest → NoElse (w ++ rest)) :
    DeclarationsBack (v ++ w) (s :: ss) (es ++ es') := by
  intro inBraces n
  obtain ⟨s', m, he, hg, hc⟩ := h n
  obtain ⟨ss', n', hes, hgs, hcs⟩ := hs inBraces m
  refine ⟨s' :: ss', n', by simp_all [Stmt.relabelAll], ?_, fun st fuel rest hr => ?_⟩
  · simpa [Stmt.idsAll, Stmt.ids, Stmt.occurrencesAll] using hg.append hgs
  rw [List.append_assoc, State.reporting_append]
  exact declarations_cons hv (fun fuel => hc st fuel (w ++ rest) fun _ => hw inBraces rest hr)
    (fun fuel => hcs (st.reporting es) fuel rest hr) fuel

/-- A segment adds its errors and nothing else. -/
theorem segment {u w : List Token} {ss : List Stmt} {es es' : List SyntaxError} (hu : Skipped u es)
    (hs : DeclarationsBack w ss es') : DeclarationsBack (u ++ w) ss (es ++ es') := by
  intro inBraces n
  obtain ⟨k, hskip⟩ := hu.skips
  obtain ⟨ss', n', hes, hgs, hcs⟩ := hs inBraces (n + k)
  refine ⟨ss', n', hes, hgs.widen (Nat.le_add_right n k), fun st fuel rest hr => ?_⟩
  rw [List.append_assoc, State.reporting_append]
  exact declarations_skip hu.head (fun fuel => hskip st fuel (w ++ rest) n)
    (fun fuel => hcs (st.reporting es) fuel rest hr) fuel

end DeclarationsBack

/-- Name, parameters and block of a function, one after another. -/
theorem FunctionBack.mk {name left right brace : Token} {v w ps : List Token} {body : List Stmt}
    {es : List SyntaxError} (hn : name.kind = .identifier) (hl : left.kind = .mark .leftParen)
    (hps : ReadsParameters v ps) (hr : right.kind = .mark .rightParen) (hb : brace.kind = .mark .leftBrace)
    (h : BlockBack w body es) : FunctionBack (name :: left :: (v ++ right :: brace :: w)) (.mk name ps body) es := by
  intro callable n
  obtain ⟨body', n', he, hg, hc⟩ := h n
  refine ⟨.mk name ps body', n', by simpa [Function.relabel] using he,
    hg, fun st fuel rest _ => ?_⟩
  cases fuel with
  | zero => exact .inl rfl
  | succ fuel =>
    dsimp only
    rw [Parse.function, List.cons_append, expect_taken (by simp [hn]), List.cons_append,
      expect_taken (by simp [hl]), List.append_assoc]
    refine .bind (parameters_complete hps st n fuel ⟨_, _, rfl, hr⟩) ?_
    rw [List.cons_append, expect_taken (by simp [hr]), List.cons_append, expect_taken (by simp [hb])]
    exact .bind (hc st fuel rest trivial) (.done _ _)

namespace MethodsBack

theorem nil : MethodsBack [] [] [] := by
  apply readsThrough_nil_iff.2
  refine fun n => ⟨[], n, rfl, .nil n, ?_⟩
  rintro st fuel _ ⟨t, u, rfl, ht⟩
  cases fuel with
  | zero => exact .inl rfl
  | succ fuel =>
    have hend : atEnd true (st.on (t :: u) n) = .done true (st.on (t :: u) n) := by
      simp [atEnd, State.on, Token.isMark, ht]
    rw [methods, List.nil_append, bind_done hend, if_pos rfl]
    exact .done _ _

/-- One method and then others. A method begins with its name, so it does not end the class. -/
theorem cons {v w : List Token} {f : Function} {fs : List Function} {es es' : List SyntaxError}
    (hs : MethodsBack w fs es') (hv : Heads v isName) (h : FunctionBack v f es) :
    MethodsBack (v ++ w) (f :: fs) (es ++ es') := by
  intro n
  obtain ⟨f', m, he, hg, hc⟩ := h .method n
  obtain ⟨fs', n', hes, hgs, hcs⟩ := hs m
  refine ⟨f' :: fs', n', by simp_all [Function.relabelAll], ?_, fun st fuel rest hr => ?_⟩
  · simpa [Function.idsAll, Function.ids, Function.occurrencesAll] using hg.append hgs
  cases fuel with
  | zero => exact .inl rfl
  | succ fuel =>
    have hend : atEnd true (st.on (v ++ (w ++ rest)) n) = .done false (st.on (v ++ (w ++ rest)) n) := by
      obtain ⟨t, u, rfl, ht⟩ := hv
      simp [atEnd, State.on, not_mark ht (m := .rightBrace) rfl]
    rw [methods, List.append_assoc, bind_done hend, if_neg (by simp), State.reporting_append]
    exact .bind (hc st fuel _ trivial) (.bind (hcs (st.reporting es) fuel rest hr) (.done _ _))

end MethodsBack

theorem function_heads {w : List Token} {f : Function} (h : ReadsFunction w f) : Heads w isName := by
  cases h with
  | mk hn => exact ⟨_, _, rfl, by rw [hn]; rfl⟩

mutual

/-- Every statement that the grammar derives is read as its tree, by induction on how it is derived. -/
theorem statement_back {w : List Token} {s : Stmt} {isOpen : Bool} :
    ReadsStmt w s isOpen → StatementBack w s isOpen []
  | .expression h => .expression h
  | .print hp h hs => .print hp h hs
  | .return hr h hs => .return hr h hs
  | .break hb hs => .break hb hs
  | .if hi hl h hr hyes => .if hi hl h hr (statement_back hyes)
  | .ifElse hi hl h hr hyes he hno => .ifElse hi hl h hr (statement_back hyes) he (statement_back hno)
  | .while hw hl h hr hbody => .while hw hl h hr (statement_back hbody)
  | .for hf hl hstart hc hs hi hr hbody => .for hf hl hstart hc hs hi hr (statement_back hbody)
  | .block (.mk hl h hr) => .block hl (.of_declarations (declarations_back h) hr)

theorem declaration_back {w : List Token} {s : Stmt} {isOpen : Bool} :
    ReadsDeclaration w s isOpen → DeclarationBack w s isOpen []
  | .class hk hn hl h hr => .class hk hn hl (methods_back h) hr
  | .function hk h => .function hk (function_back h)
  | .var hk h => .var hk h
  | .statement h => .statement (stmt_heads h) (statement_back h)

theorem declarations_back {w : List Token} {ss : List Stmt} : ReadsDeclarations w ss → DeclarationsBack w ss []
  | .nil => .nil
  | .cons h hs => by
    have hhead := (declaration_heads h).mono fun _ hk => beginsDeclaration_continues hk
    exact (declarations_back hs).cons hhead (declaration_back h) fun _ _ hr => noElse_declarations hs hr

theorem function_back {w : List Token} {f : Function} : ReadsFunction w f → FunctionBack w f []
  | .mk hn hl hps hr (.mk hb h hr') =>
    .mk hn hl hps hr hb (.of_declarations (declarations_back h) hr')

theorem methods_back {w : List Token} {fs : List Function} : ReadsMethods w fs → MethodsBack w fs []
  | .nil => .nil
  | .cons h hs => (methods_back hs).cons (function_heads h) (function_back h)

end

end Parse

end LoxLang
