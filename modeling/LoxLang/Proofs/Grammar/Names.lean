import LoxLang.Proofs.Grammar.Trees
import LoxLang.Proofs.Tree.Names

namespace LoxLang.Grammar

/-- If the token is an identifier, it is as told, and the keyword `this` is spelled so. -/
def Names (P : Token → Prop) (t : Token) : Prop :=
  (t.kind = .identifier → P t) ∧ (t.kind = .keyword .this_ → t.lexeme = "this")

variable {P : Token → Prop}

mutual

/-- The names in an expression are identifiers among its tokens. -/
theorem expr_named {r : ExprRule} {w : List Token} {e : Expr} :
    ReadsExpr r w e → (∀ t ∈ w, Names P t) → e.Named P
  | @ReadsExpr.assignVariable _ name _ _ _ hn hq h, hw =>
    ⟨(hw name (by simp)).1 hn, expr_named h fun t ht => hw t (by simp [ht])⟩
  | .assignProperty ho hd hn hq h, hw =>
    ⟨expr_named ho fun t ht => hw t (by simp [ht]), expr_named h fun t ht => hw t (by simp [ht])⟩
  | .assignmentTernary h, hw | .ternaryBinary h, hw | .binaryOperand h, hw | .operandBinary _ h, hw
  | .operandUnary _ h, hw | .unaryCall h, hw | .callPrimary h, hw => expr_named h hw
  | .ternary hcond hq ha hcolon hb, hw =>
    ⟨⟨expr_named hcond fun t ht => hw t (by simp [ht]), expr_named ha fun t ht => hw t (by simp [ht])⟩,
      expr_named hb fun t ht => hw t (by simp [ht])⟩
  | @ReadsExpr.binary l operator _ _ left right hl ho hr, hw => by
    have hleft : left.Named P := expr_named hl fun t ht => hw t (by simp [ht])
    have hright : right.Named P := expr_named hr fun t ht => hw t (by simp [ht])
    cases l <;> exact ⟨hleft, hright⟩
  | .unary (e := e) ho h, hw => expr_named (e := e) h fun t ht => hw t (by simp [ht])
  | .call h hl hs hr, hw =>
    ⟨expr_named h fun t ht => hw t (by simp [ht]), arguments_named hs fun t ht => hw t (by simp [ht])⟩
  | @ReadsExpr.get _ _ _ object h hd hn, hw => expr_named (e := object) h fun t ht => hw t (by simp [ht])
  | .literal _, _ => trivial
  | .this (t := t) h, hw => (hw t (by simp)).2 h
  | .variable (t := t) h, hw => (hw t (by simp)).1 h
  | .group (e := e) hl h hr, hw => expr_named (e := e) h fun t ht => hw t (by simp [ht])

theorem arguments_named {w : List Token} {es : List Expr} :
    ReadsArguments w es → (∀ t ∈ w, Names P t) → Expr.NamedAll P es
  | .nil, _ => trivial
  | .some h _, hw => someArguments_named h hw

theorem someArguments_named {w : List Token} {es : List Expr} :
    ReadsSomeArguments w es → (∀ t ∈ w, Names P t) → Expr.NamedAll P es
  | .one h, hw => ⟨expr_named h hw, trivial⟩
  | .cons h hcomma hs, hw =>
    ⟨expr_named h fun t ht => hw t (by simp [ht]), someArguments_named hs fun t ht => hw t (by simp [ht])⟩

end

theorem exprStmt_named {w : List Token} {s : Stmt} (h : ReadsExprStmt w s) (hw : ∀ t ∈ w, Names P t) :
    s.Named P := by
  obtain ⟨he, -⟩ := h
  exact expr_named he fun t ht => hw t (by simp [ht])

theorem var_named {w : List Token} {s : Stmt} (h : ReadsVar w s) (hw : ∀ t ∈ w, Names P t) : s.Named P := by
  cases h with
  | bare hn _ => exact (hw _ (by simp)).1 hn
  | initialized hn _ he _ => exact ⟨(hw _ (by simp)).1 hn, expr_named he fun t ht => hw t (by simp [ht])⟩

theorem forStart_named {w : List Token} {s : Stmt} (h : ReadsForStart w (some s)) (hw : ∀ t ∈ w, Names P t) :
    s.Named P := by
  cases h with
  | var _ h => exact var_named h fun t ht => hw t (by simp [ht])
  | expression h => exact exprStmt_named h hw

theorem optional_named {w : List Token} {e : Expr} (h : ReadsOptional w (some e)) (hw : ∀ t ∈ w, Names P t) :
    e.Named P := by
  cases h with
  | some h => exact expr_named h hw

/-- The loop built from clauses has no names but theirs. -/
theorem for_named {start : Option Stmt} {c increment : Option Expr} {body : Stmt} (hs : ∀ s ∈ start, s.Named P)
    (hc : ∀ e ∈ c, e.Named P) (hi : ∀ e ∈ increment, e.Named P) (hb : body.Named P) :
    (withStart start (.loop (c.getD (.literal (.bool true))) (withIncrement increment body))).Named P := by
  have hbody : (withIncrement increment body).Named P := by
    cases increment with
    | none => exact hb
    | some e => exact ⟨hb, hi e rfl, trivial⟩
  have hcond : (c.getD (.literal (.bool true))).Named P := by
    cases c with
    | none => trivial
    | some e => exact hc e rfl
  cases start with
  | none => exact ⟨hcond, hbody⟩
  | some s => exact ⟨hs s rfl, ⟨hcond, hbody⟩, trivial⟩

/-- So are the names of parameters. -/
theorem someParameters_named {w ps : List Token} (h : ReadsSomeParameters w ps) (hw : ∀ t ∈ w, Names P t) :
    ∀ p ∈ ps, P p := by
  induction h with
  | one hp =>
    intro p hm
    rw [List.mem_singleton.1 hm]
    exact (hw _ (by simp)).1 hp
  | cons hp _ _ ih =>
    intro p hm
    rcases List.mem_cons.1 hm with rfl | hm
    · exact (hw _ (by simp)).1 hp
    · exact ih (fun t ht => hw t (by simp [ht])) p hm

theorem parameters_named {w ps : List Token} (h : ReadsParameters w ps) (hw : ∀ t ∈ w, Names P t) :
    ∀ p ∈ ps, P p := by
  cases h with
  | nil => simp
  | some h _ => exact someParameters_named h hw

mutual

theorem stmt_named {w : List Token} {s : Stmt} {isOpen : Bool} :
    ReadsStmt w s isOpen → (∀ t ∈ w, Names P t) → s.Named P
  | .expression h, hw => exprStmt_named h hw
  | .print _ h _, hw => expr_named h fun t ht => hw t (by simp [ht])
  | @ReadsStmt.return _ _ _ none _ _ _, _ => trivial
  | @ReadsStmt.return _ _ _ (some _) _ h _, hw => optional_named h fun t ht => hw t (by simp [ht])
  | .break _ _, _ => trivial
  | .if _ _ h _ hyes, hw =>
    ⟨expr_named h fun t ht => hw t (by simp [ht]), stmt_named hyes fun t ht => hw t (by simp [ht])⟩
  | .ifElse _ _ h _ hyes _ hno, hw =>
    ⟨⟨expr_named h fun t ht => hw t (by simp [ht]), stmt_named hyes fun t ht => hw t (by simp [ht])⟩,
      stmt_named hno fun t ht => hw t (by simp [ht])⟩
  | .while _ _ h _ hbody, hw =>
    ⟨expr_named h fun t ht => hw t (by simp [ht]), stmt_named hbody fun t ht => hw t (by simp [ht])⟩
  | .for _ _ hstart hc _ hi _ hbody, hw =>
    for_named (by rintro s rfl; exact forStart_named hstart fun t ht => hw t (by simp [ht]))
      (by rintro e rfl; exact optional_named hc fun t ht => hw t (by simp [ht]))
      (by rintro e rfl; exact optional_named hi fun t ht => hw t (by simp [ht]))
      (stmt_named hbody fun t ht => hw t (by simp [ht]))
  | .block h, hw => block_named h hw

theorem block_named {w : List Token} {body : List Stmt} :
    ReadsBlock w body → (∀ t ∈ w, Names P t) → Stmt.NamedAll P body
  | .mk _ h _, hw => declarations_named h fun t ht => hw t (by simp [ht])

theorem declaration_named {w : List Token} {s : Stmt} {isOpen : Bool} :
    ReadsDeclaration w s isOpen → (∀ t ∈ w, Names P t) → s.Named P
  | @ReadsDeclaration.class _ name _ _ _ _ _ hn _ h _, hw =>
    ⟨(hw name (by simp)).1 hn, methods_named h fun t ht => hw t (by simp [ht])⟩
  | .function _ h, hw => function_named h fun t ht => hw t (by simp [ht])
  | .var _ h, hw => var_named h fun t ht => hw t (by simp [ht])
  | .statement h, hw => stmt_named h hw

/-- The names in declarations are identifiers among their tokens. -/
theorem declarations_named {w : List Token} {ss : List Stmt} :
    ReadsDeclarations w ss → (∀ t ∈ w, Names P t) → Stmt.NamedAll P ss
  | .nil, _ => trivial
  | .cons h hs, hw =>
    ⟨declaration_named h fun t ht => hw t (by simp [ht]), declarations_named hs fun t ht => hw t (by simp [ht])⟩

theorem function_named {w : List Token} {f : Function} :
    ReadsFunction w f → (∀ t ∈ w, Names P t) → f.Named P
  | @ReadsFunction.mk name _ _ _ _ _ _ hn _ hps _ hb, hw =>
    ⟨(hw name (by simp)).1 hn, parameters_named hps fun t ht => hw t (by simp [ht]),
      block_named hb fun t ht => hw t (by simp [ht])⟩

theorem methods_named {w : List Token} {fs : List Function} :
    ReadsMethods w fs → (∀ t ∈ w, Names P t) → Function.NamedAll P fs
  | .nil, _ => trivial
  | .cons h hs, hw =>
    ⟨function_named h fun t ht => hw t (by simp [ht]), methods_named hs fun t ht => hw t (by simp [ht])⟩

end

end LoxLang.Grammar
