import LoxLang.Proofs.Grammar.Rules
import LoxLang.Proofs.Grammar.Trees

namespace LoxLang.Grammar

namespace Derives

theorem mark {m : Mark} {x : Token} (h : x.kind = .mark m) : Derives (.mark m) [x] := .token h

theorem keyword {k : Keyword} {x : Token} (h : x.kind = .keyword k) : Derives (.keyword k) [x] := .token h

theorem ident {x : Token} (h : x.kind = .identifier) : Derives .ident [x] := .token h

/-- One alternative of many is enough. -/
theorem anyOf {a last : Ebnf} {as : List Ebnf} {w : List Token} (ha : a ∈ as) (h : Derives a w) :
    Derives (.any as last) w := by
  induction as with
  | nil => cases ha
  | cons b bs ih =>
    rcases List.mem_cons.1 ha with rfl | ha
    · exact .altLeft h
    · exact .altRight (ih ha)

theorem anyLast {last : Ebnf} {as : List Ebnf} {w : List Token} (h : Derives last w) :
    Derives (.any as last) w := by
  induction as with
  | nil => exact h
  | cons b bs ih => exact .altRight ih

/-- A repetition may also grow at its end. Trees that lean to the left come this way. -/
theorem starSnoc {a : Ebnf} {v w : List Token} (hv : Derives (.star a) v) (hw : Derives a w) :
    Derives (.star a) (v ++ w) := by
  generalize hs : Ebnf.star a = s at hv
  induction hv with
  | starNil =>
    cases hs
    simpa using Derives.starCons hw .starNil
  | starCons hu _ _ ih =>
    cases hs
    rw [List.append_assoc]
    exact .starCons hu (ih rfl)
  | _ => cases hs

end Derives

/-- The nonterminal of a level of operators. -/
def levelNonterminal : Level → Nonterminal
  | .or => .logicOr
  | .and => .logicAnd
  | .equality => .equality
  | .comparison => .comparison
  | .term => .term
  | .factor => .factor

def operandNonterminal (l : Level) : Nonterminal := (l.tighter?.map levelNonterminal).getD .unary

/-- The nonterminal of a rule for expressions. -/
def ExprRule.nonterminal : ExprRule → Nonterminal
  | .assignment => .assignment
  | .ternary => .ternary
  | .binary l => levelNonterminal l
  | .operand l => operandNonterminal l
  | .unary => .unary
  | .call => .call
  | .primary => .primary

/-- The operators of a level. -/
def operators : Level → Ebnf
  | .or => .keyword .or_
  | .and => .keyword .and_
  | .equality => .alt (.mark .bangEqual) (.mark .equalEqual)
  | .comparison => .any [.mark .greater, .mark .greaterEqual, .mark .less] (.mark .lessEqual)
  | .term => .alt (.mark .minus) (.mark .plus)
  | .factor => .alt (.mark .slash) (.mark .star)

/-- The rules for the levels of operators have one shape. -/
theorem rules_level (l : Level) :
    rules (levelNonterminal l) = level (.rule (operandNonterminal l)) (operators l) := by
  cases l <;> rfl

/-- The kinds of a level are the operators in its rule. -/
theorem operator_derives {l : Level} {t : Token} (h : t.kind ∈ l.kinds) : Derives (operators l) [t] := by
  cases l <;> simp only [Level.kinds, List.mem_cons, List.not_mem_nil, or_false] at h
  case or | and => exact .keyword h
  case comparison =>
    rcases h with h | h | h | h
    · exact .anyOf (by simp) (.mark h)
    · exact .anyOf (by simp) (.mark h)
    · exact .anyOf (by simp) (.mark h)
    · exact .anyLast (.mark h)
  all_goals
    rcases h with h | h
    · exact .altLeft (.mark h)
    · exact .altRight (.mark h)

/-- The literals of the reader are the literals of the grammar. -/
theorem literal_derives {t : Token} {value : Literal} (h : Parse.literal? t = some value) :
    Derives (.rule .primary) [t] := by
  refine .rule ?_
  unfold Parse.literal? at h
  split at h
  · next hk => exact .anyOf (a := .keyword .false_) (by simp) (.keyword hk)
  · next hk => exact .anyOf (a := .keyword .true_) (by simp) (.keyword hk)
  · next hk => exact .anyOf (a := .keyword .nil_) (by simp) (.keyword hk)
  · next value hk => exact .anyOf (a := .token .number) (by simp) (.token ⟨value, hk⟩)
  · next text hk => exact .anyOf (a := .token .string) (by simp) (.token ⟨text, hk⟩)
  · cases h

/-- An assignment is an expression: the rule for expressions adds nothing. -/
theorem Derives.expression {w : List Token} (h : Derives (.rule .assignment) w) :
    Derives (.rule .expression) w :=
  .rule h

mutual

/-- An expression with a tree is derived by its rule, by induction on the tree. -/
theorem expr_derives {r : ExprRule} {w : List Token} {e : Expr} :
    ReadsExpr r w e → Derives (.rule r.nonterminal) w
  | .assignVariable hn hq h =>
    .rule (.altLeft (.seq (.altRight (.ident hn)) (.seq (.mark hq) (expr_derives h))))
  | .assignProperty ho hd hn hq h => by
    have hl := Derives.seq (expr_derives ho) (.seq (.mark hd) (.ident hn))
    simpa [ExprRule.nonterminal] using Derives.rule (n := .assignment)
      (.altLeft (.seq (.altLeft hl) (.seq (.mark hq) (expr_derives h))))
  | .assignmentTernary h => .rule (.altRight (expr_derives h))
  | .ternary hc hq ha hcolon hb =>
    .rule (.seq (expr_derives hc)
      (.optSome (.seq (.mark hq) (.seq (expr_derives ha) (.seq (.mark hcolon) (expr_derives hb))))))
  | .ternaryBinary h => by
    simpa [ExprRule.nonterminal] using Derives.rule (n := .ternary) (.seq (expr_derives h) .optNone)
  | .binary (l := l) hl ho hr => by
    cases expr_derives hl with
    | rule hleft =>
      simp only [ExprRule.nonterminal, rules_level] at hleft
      cases hleft with
      | seq hu hs =>
        have hs := hs.starSnoc (.seq (operator_derives ho) (expr_derives hr))
        refine .rule ?_
        simp only [ExprRule.nonterminal, rules_level]
        simpa [level] using Derives.seq hu hs
  | .binaryOperand h => by
    refine .rule ?_
    simp only [ExprRule.nonterminal, rules_level]
    simpa [level, ExprRule.nonterminal] using Derives.seq (expr_derives h) .starNil
  | .operandBinary hl h => by simpa [ExprRule.nonterminal, operandNonterminal, hl] using expr_derives h
  | .operandUnary hl h => by simpa [ExprRule.nonterminal, operandNonterminal, hl] using expr_derives h
  | .unary ho h => by
    refine .rule (.altLeft (.seq (v := [_]) ?_ (expr_derives h)))
    rcases ho with ho | ho
    · exact .altLeft (.mark ho)
    · exact .altRight (.mark ho)
  | .unaryCall h => .rule (.altRight (expr_derives h))
  | .call h hl hs hr => by
    cases expr_derives h with
    | rule h =>
      cases h with
      | seq hp hs' =>
        have hs := hs'.starSnoc (.altLeft (.seq (.mark hl) (.seq (arguments_derive hs) (.mark hr))))
        simpa [ExprRule.nonterminal] using Derives.rule (n := .call) (.seq hp hs)
  | .get h hd hn => by
    cases expr_derives h with
    | rule h =>
      cases h with
      | seq hp hs' =>
        have hs := hs'.starSnoc (.altRight (.seq (.mark hd) (.ident hn)))
        simpa [ExprRule.nonterminal] using Derives.rule (n := .call) (.seq hp hs)
  | .callPrimary h => by
    simpa [ExprRule.nonterminal] using Derives.rule (n := .call) (.seq (expr_derives h) .starNil)
  | .literal h => literal_derives h
  | .this h => .rule (.anyOf (a := .keyword .this_) (by simp) (.keyword h))
  | .variable h => .rule (.anyOf (a := .ident) (by simp) (.ident h))
  | .group hl h hr =>
    .rule (.anyLast (.seq (v := [_]) (.mark hl) (.seq (.expression (expr_derives h)) (.mark hr))))

theorem arguments_derive {w : List Token} {es : List Expr} :
    ReadsArguments w es → Derives (.opt (.rule .arguments)) w
  | .nil => .optNone
  | .some h hl => .optSome (.rule (someArguments_derive h hl))

/-- A list of arguments is derived if it is no longer than the rule allows. -/
theorem someArguments_derive {w : List Token} {es : List Expr} {n : Nat} :
    ReadsSomeArguments w es → es.length ≤ n + 1 →
    Derives (.seq (.rule .expression) (.upTo n (.seq (.mark .comma) (.rule .expression)))) w
  | .one h, _ => by simpa using Derives.seq (.expression (expr_derives h)) .upToNil
  | .cons h hc hs, hl => by
    cases n with
    | zero => cases hs <;> simp at hl
    | succ n =>
      cases someArguments_derive (n := n) hs (by simpa using hl) with
      | seq hu hv =>
        have hrest := Derives.upToCons (.seq (.mark hc) hu) hv
        simpa using Derives.seq (.expression (expr_derives h)) hrest

end

theorem exprStmt_derives {w : List Token} {s : Stmt} : ReadsExprStmt w s → Derives (.rule .exprStmt) w
  | .mk h hs => .rule (.seq (.expression (expr_derives h)) (.mark hs))

/-- The word that declares a variable, and what follows it. -/
theorem var_derives {var : Token} {w : List Token} {s : Stmt} (hv : var.kind = .keyword .var_) :
    ReadsVar w s → Derives (.rule .varDecl) (var :: w)
  | .bare hn hs =>
    .rule (.seq (v := [_]) (.keyword hv) (.seq (v := [_]) (.ident hn) (.seq (v := []) .optNone (.mark hs))))
  | .initialized hn hq h hs =>
    .rule (.seq (v := [_]) (.keyword hv) (.seq (v := [_]) (.ident hn)
      (.seq (v := _ :: _) (.optSome (.seq (v := [_]) (.mark hq) (.expression (expr_derives h)))) (.mark hs))))

theorem optional_derives {w : List Token} {e : Option Expr} :
    ReadsOptional w e → Derives (.opt (.rule .expression)) w
  | .none => .optNone
  | .some h => .optSome (.expression (expr_derives h))

/-- Each form of the first clause is one alternative in the rule. -/
theorem forStart_derives {w : List Token} {start : Option Stmt} :
    ReadsForStart w start → Derives (.any [.rule .varDecl, .rule .exprStmt] (.mark .semicolon)) w
  | .none hs => .anyLast (.mark hs)
  | .var hv h => .anyOf (a := .rule .varDecl) (by simp) (var_derives hv h)
  | .expression h => .anyOf (a := .rule .exprStmt) (by simp) (exprStmt_derives h)

theorem someParameters_derive {w ps : List Token} (h : ReadsSomeParameters w ps) :
    ∀ n, ps.length ≤ n + 1 → Derives (.seq .ident (.upTo n (.seq (.mark .comma) .ident))) w := by
  induction h with
  | one hp => exact fun n _ => .seq (v := [_]) (.ident hp) .upToNil
  | cons hp hc hps ih =>
    intro n hl
    cases n with
    | zero => cases hps <;> simp at hl
    | succ n =>
      cases ih n (by simpa using hl) with
      | seq hu hv => exact .seq (v := [_]) (.ident hp) (.upToCons (v := _ :: _) (.seq (v := [_]) (.mark hc) hu) hv)

theorem parameters_derive {w ps : List Token} :
    ReadsParameters w ps → Derives (.opt (.rule .parameters)) w
  | .nil => .optNone
  | .some h hl => .optSome (.rule (someParameters_derive h _ hl))

/-- A statement by one of the rules for statements. -/
theorem Derives.statement {n : Nonterminal} {w : List Token} (h : Derives (rules n) w)
    (hn : .rule n ∈ [Ebnf.rule .exprStmt, .rule .printStmt, .rule .returnStmt, .rule .ifStmt, .rule .whileStmt,
      .rule .forStmt, .rule .breakStmt]) : Derives (.rule .statement) w :=
  .rule (.anyOf hn (.rule h))

mutual

/-- A statement with a tree is derived, wherever the tree puts a second branch. The grammar does not tell apart the
conditions that one could go with. -/
theorem stmt_derives {w : List Token} {s : Stmt} {isOpen : Bool} :
    ReadsStmt w s isOpen → Derives (.rule .statement) w
  | .expression h => .rule (.anyOf (a := .rule .exprStmt) (by simp) (exprStmt_derives h))
  | .print hp h hs =>
    .statement (n := .printStmt)
      (.seq (v := [_]) (.keyword hp) (.seq (.expression (expr_derives h)) (.mark hs))) (by simp)
  | .return hr h hs =>
    .statement (n := .returnStmt)
      (.seq (v := [_]) (.keyword hr) (.seq (optional_derives h) (.mark hs))) (by simp)
  | .if hi hl h hr hyes => by
    have hs := Derives.seq (b := .seq (.rule .statement) (.opt (.seq (.keyword .else_) (.rule .statement))))
      (.mark hr) (.seq (stmt_derives hyes) .optNone)
    rw [List.append_nil] at hs
    exact .statement (n := .ifStmt) (.seq (v := [_]) (.keyword hi)
      (.seq (v := [_]) (.mark hl) (.seq (.expression (expr_derives h)) hs))) (by simp)
  | .ifElse hi hl h hr hyes he hno =>
    have hs := Derives.seq (.mark hr)
      (.seq (stmt_derives hyes) (.optSome (.seq (.keyword he) (stmt_derives hno))))
    .statement (n := .ifStmt) (.seq (v := [_]) (.keyword hi)
      (.seq (v := [_]) (.mark hl) (.seq (.expression (expr_derives h)) hs))) (by simp)
  | .while hw hl h hr hbody =>
    .statement (n := .whileStmt) (.seq (v := [_]) (.keyword hw) (.seq (v := [_]) (.mark hl)
      (.seq (.expression (expr_derives h)) (.seq (v := [_]) (.mark hr) (stmt_derives hbody))))) (by simp)
  | .for hf hl hstart hc hs hi hr hbody =>
    .statement (n := .forStmt) (.seq (v := [_]) (.keyword hf) (.seq (v := [_]) (.mark hl)
      (.seq (forStart_derives hstart) (.seq (optional_derives hc) (.seq (v := [_]) (.mark hs)
        (.seq (optional_derives hi) (.seq (v := [_]) (.mark hr) (stmt_derives hbody)))))))) (by simp)
  | .break hb hs => .statement (n := .breakStmt) (.seq (v := [_]) (.keyword hb) (.mark hs)) (by simp)
  | .block h => .rule (.anyLast (block_derives h))

theorem block_derives {w : List Token} {body : List Stmt} : ReadsBlock w body → Derives (.rule .block) w
  | .mk hl h hr => .rule (.seq (v := [_]) (.mark hl) (.seq (declarations_derive h) (.mark hr)))

theorem declaration_derives {w : List Token} {s : Stmt} {isOpen : Bool} :
    ReadsDeclaration w s isOpen → Derives (.rule .declaration) w
  | .class hk hn hl h hr =>
    .rule (.anyOf (a := .rule .classDecl) (by simp) (.rule (.seq (v := [_]) (.keyword hk)
      (.seq (v := [_]) (.ident hn) (.seq (v := [_]) (.mark hl) (.seq (methods_derive h) (.mark hr)))))))
  | .function hk h =>
    .rule (.anyOf (a := .rule .funDecl) (by simp)
      (.rule (.seq (v := [_]) (.keyword hk) (function_derives h))))
  | .var hv h => .rule (.anyOf (a := .rule .varDecl) (by simp) (var_derives hv h))
  | .statement h => .rule (.anyLast (stmt_derives h))

/-- Declarations with trees are a repetition of declarations. -/
theorem declarations_derive {w : List Token} {ss : List Stmt} :
    ReadsDeclarations w ss → Derives (.star (.rule .declaration)) w
  | .nil => .starNil
  | .cons h hs => .starCons (declaration_derives h) (declarations_derive hs)

theorem function_derives {w : List Token} {f : Function} : ReadsFunction w f → Derives (.rule .function) w
  | .mk hn hl hps hr hbody =>
    .rule (.seq (v := [_]) (.ident hn) (.seq (v := [_]) (.mark hl) (.seq (parameters_derive hps)
      (.seq (v := [_]) (.mark hr) (block_derives hbody)))))

theorem methods_derive {w : List Token} {fs : List Function} :
    ReadsMethods w fs → Derives (.star (.rule .function)) w
  | .nil => .starNil
  | .cons h hs => .starCons (function_derives h) (methods_derive hs)

end

/-- The tokens have a tree as what the nonterminal stands for. -/
def HasTree : Nonterminal → List Token → Prop
  | .program, w => ∃ ss, ReadsDeclarations w ss
  | .declaration, w => ∃ s isOpen, ReadsDeclaration w s isOpen
  | .classDecl, w => ∃ s, ReadsDeclaration w s false
  | .funDecl, w => ∃ s, ReadsDeclaration w s false
  | .function, w => ∃ f, ReadsFunction w f
  | .parameters, w => ∃ ps, ReadsSomeParameters w ps ∧ ps.length ≤ maxArity
  | .varDecl, w => ∃ var u s, w = var :: u ∧ var.kind = .keyword .var_ ∧ ReadsVar u s
  | .statement, w => ∃ s isOpen, ReadsStmt w s isOpen
  | .exprStmt, w => ∃ s, ReadsExprStmt w s
  | .printStmt, w => ∃ s, ReadsStmt w s false
  | .returnStmt, w => ∃ s, ReadsStmt w s false
  | .ifStmt, w => ∃ s isOpen, ReadsStmt w s isOpen
  | .whileStmt, w => ∃ s isOpen, ReadsStmt w s isOpen
  | .forStmt, w => ∃ s isOpen, ReadsStmt w s isOpen
  | .breakStmt, w => ∃ s, ReadsStmt w s false
  | .block, w => ∃ ss, ReadsBlock w ss
  | .expression, w => ∃ e, ReadsExpr .assignment w e
  | .assignment, w => ∃ e, ReadsExpr .assignment w e
  | .ternary, w => ∃ e, ReadsExpr .ternary w e
  | .logicOr, w => ∃ e, ReadsExpr (.binary .or) w e
  | .logicAnd, w => ∃ e, ReadsExpr (.binary .and) w e
  | .equality, w => ∃ e, ReadsExpr (.binary .equality) w e
  | .comparison, w => ∃ e, ReadsExpr (.binary .comparison) w e
  | .term, w => ∃ e, ReadsExpr (.binary .term) w e
  | .factor, w => ∃ e, ReadsExpr (.binary .factor) w e
  | .unary, w => ∃ e, ReadsExpr .unary w e
  | .call, w => ∃ e, ReadsExpr .call w e
  | .arguments, w => ∃ es, ReadsSomeArguments w es ∧ es.length ≤ maxArity
  | .primary, w => ∃ e, ReadsExpr .primary w e

/-- What a derivation from the right side of a rule comes to, given trees for the nonterminals in it. -/
def Means : Ebnf → List Token → Prop
  | .token t, w => ∃ x, w = [x] ∧ t.Fits x.kind
  | .rule n, w => HasTree n w
  | .seq a b, w => ∃ u v, w = u ++ v ∧ Means a u ∧ Means b v
  | .alt a b, w => Means a w ∨ Means b w
  | .opt a, w => w = [] ∨ Means a w
  | .star a, w => ∃ ws : List (List Token), w = ws.flatten ∧ ∀ u ∈ ws, Means a u
  | .upTo n a, w => ∃ ws : List (List Token), w = ws.flatten ∧ ws.length ≤ n ∧ ∀ u ∈ ws, Means a u

@[simp]
theorem means_mark {m : Mark} {w : List Token} :
    Means (.mark m) w ↔ ∃ x, w = [x] ∧ x.kind = .mark m := .rfl

@[simp]
theorem means_keyword {k : Keyword} {w : List Token} :
    Means (.keyword k) w ↔ ∃ x, w = [x] ∧ x.kind = .keyword k := .rfl

/-- An operand is an expression of the next level, or a unary expression below the last. -/
theorem operand_tree {l : Level} {w : List Token} (h : HasTree (operandNonterminal l) w) :
    ∃ e, ReadsExpr (.operand l) w e := by
  cases l with
  | factor => exact h.imp fun e h => .operandUnary rfl h
  | _ => exact h.imp fun e h => .operandBinary rfl h

/-- What the rule has between operands is an operator of the level. -/
theorem operator_means {l : Level} {w : List Token} (h : Means (operators l) w) :
    ∃ t, w = [t] ∧ t.kind ∈ l.kinds := by
  cases l <;> simp only [operators, Ebnf.any, Means, means_mark, means_keyword] at h
  case or | and =>
    obtain ⟨t, rfl, ht⟩ := h
    exact ⟨t, rfl, by simp [ht, Level.kinds]⟩
  case comparison =>
    rcases h with ⟨t, rfl, ht⟩ | ⟨t, rfl, ht⟩ | ⟨t, rfl, ht⟩ | ⟨t, rfl, ht⟩
    all_goals exact ⟨t, rfl, by simp [ht, Level.kinds]⟩
  all_goals
    rcases h with ⟨t, rfl, ht⟩ | ⟨t, rfl, ht⟩
    all_goals exact ⟨t, rfl, by simp [ht, Level.kinds]⟩

/-- Operands in a row lean to the left. -/
theorem level_tree {l : Level} {w : List Token}
    (h : Means (level (.rule (operandNonterminal l)) (operators l)) w) : ∃ e, ReadsExpr (.binary l) w e := by
  obtain ⟨u, v, rfl, hu, ws, rfl, hws⟩ := h
  obtain ⟨e, he⟩ := operand_tree hu
  replace he := ReadsExpr.binaryOperand he
  clear hu
  induction ws generalizing u e with
  | nil => exact ⟨e, by simpa using he⟩
  | cons x ws ih =>
    obtain ⟨o, r, rfl, ho, hr⟩ := hws x (by simp)
    obtain ⟨t, rfl, ht⟩ := operator_means ho
    obtain ⟨right, hr⟩ := operand_tree hr
    have := ih _ (fun u hu => hws u (by simp [hu])) _ (he.binary ht hr)
    simpa using this

/-- Argument lists and property names in a row go on from what stands left of them. -/
theorem suffixes_tree {u : List Token} {e : Expr} (he : ReadsExpr .call u e) {ws : List (List Token)}
    (hws : ∀ w ∈ ws, Means (.alt (.all [.mark .leftParen, .opt (.rule .arguments)] (.mark .rightParen))
      (.seq (.mark .dot) .ident)) w) : ∃ e, ReadsExpr .call (u ++ ws.flatten) e := by
  induction ws generalizing u e with
  | nil => exact ⟨e, by simpa using he⟩
  | cons x ws ih =>
    have hrest := fun u hu => hws u (List.mem_cons_of_mem x hu)
    rcases hws x (by simp) with ⟨_, _, rfl, ⟨left, rfl, hl⟩, v, _, rfl, hv, right, rfl, hr⟩ |
      ⟨_, _, rfl, ⟨dot, rfl, hd⟩, name, rfl, hn⟩
    · have hargs : ∃ es, ReadsArguments v es := by
        rcases hv with rfl | ⟨es, hes, hlen⟩
        · exact ⟨[], .nil⟩
        · exact ⟨es, .some hes hlen⟩
      obtain ⟨es, hes⟩ := hargs
      simpa using ih (he.call hl hes hr) hrest
    · simpa using ih (he.get hd hn) hrest

/-- Expressions after commas. -/
theorem arguments_tree {u : List Token} {e : Expr} (he : ReadsExpr .assignment u e) {ws : List (List Token)}
    (hws : ∀ w ∈ ws, Means (.seq (.mark .comma) (.rule .expression)) w) :
    ∃ es, ReadsSomeArguments (u ++ ws.flatten) es ∧ es.length = ws.length + 1 := by
  induction ws generalizing u e with
  | nil => exact ⟨[e], by simpa using .one he, rfl⟩
  | cons x ws ih =>
    obtain ⟨_, v, rfl, ⟨comma, rfl, hc⟩, e', he'⟩ := hws x (by simp)
    obtain ⟨es, hes, hl⟩ := ih he' fun u hu => hws u (List.mem_cons_of_mem _ hu)
    exact ⟨e :: es, by simpa using .cons he hc hes, by simp [hl]⟩

/-- Names after commas, as many as there are. -/
theorem parameters_tree {p : Token} (hp : p.kind = .identifier) {ws : List (List Token)}
    (hws : ∀ w ∈ ws, Means (.seq (.mark .comma) .ident) w) :
    ∃ ps, ReadsSomeParameters (p :: ws.flatten) ps ∧ ps.length = ws.length + 1 := by
  induction ws generalizing p with
  | nil => exact ⟨[p], .one hp, rfl⟩
  | cons x ws ih =>
    obtain ⟨_, _, rfl, ⟨comma, rfl, hc⟩, q, rfl, hq⟩ := hws x (by simp)
    obtain ⟨ps, hps, hl⟩ := ih hq fun u hu => hws u (List.mem_cons_of_mem _ hu)
    exact ⟨p :: ps, .cons hp hc hps, by simp [hl]⟩

/-- Declarations one after another. -/
theorem declarations_tree {ws : List (List Token)} (hws : ∀ w ∈ ws, HasTree .declaration w) :
    ∃ ss, ReadsDeclarations ws.flatten ss := by
  induction ws with
  | nil => exact ⟨[], .nil⟩
  | cons w ws ih =>
    obtain ⟨s, isOpen, hs⟩ := hws w (by simp)
    obtain ⟨ss, hss⟩ := ih fun u hu => hws u (List.mem_cons_of_mem _ hu)
    exact ⟨s :: ss, .cons hs hss⟩

theorem methods_tree {ws : List (List Token)} (hws : ∀ w ∈ ws, HasTree .function w) :
    ∃ fs, ReadsMethods ws.flatten fs := by
  induction ws with
  | nil => exact ⟨[], .nil⟩
  | cons w ws ih =>
    obtain ⟨f, hf⟩ := hws w (by simp)
    obtain ⟨fs, hfs⟩ := ih fun u hu => hws u (List.mem_cons_of_mem _ hu)
    exact ⟨f :: fs, .cons hf hfs⟩

/-- An `else` after a statement that is open goes to the nearest `if` in it. -/
theorem attach_else {v u : List Token} {yes no : Stmt} {isOpen isOpen' : Bool} {else_ : Token}
    (he : else_.kind = .keyword .else_) (hno : ReadsStmt u no isOpen') :
    ReadsStmt v yes isOpen → isOpen = true → ∃ s o, ReadsStmt (v ++ else_ :: u) s o
  | @ReadsStmt.if _ _ _ _ _ _ _ isOpen hi hl h hr hyes, _ => by
    by_cases ho : isOpen = true
    · obtain ⟨s, o, hs⟩ := attach_else he hno hyes ho
      exact ⟨_, _, by simpa using ReadsStmt.if hi hl h hr hs⟩
    · rw [Bool.not_eq_true] at ho
      exact ⟨_, _, by simpa using ReadsStmt.ifElse hi hl h hr (ho ▸ hyes) he hno⟩
  | .ifElse hi hl h hr hyes he' hno', ho => by
    obtain ⟨s, o, hs⟩ := attach_else he hno hno' ho
    exact ⟨_, _, by simpa using ReadsStmt.ifElse hi hl h hr hyes he' hs⟩
  | .while hw hl h hr hbody, ho => by
    obtain ⟨s, o, hs⟩ := attach_else he hno hbody ho
    exact ⟨_, _, by simpa using ReadsStmt.while hw hl h hr hs⟩
  | .for hf hl hstart hc hs hi hr hbody, ho => by
    obtain ⟨s, o, hb⟩ := attach_else he hno hbody ho
    exact ⟨_, _, by simpa using ReadsStmt.for hf hl hstart hc hs hi hr hb⟩
  | .expression _, ho | .print .., ho | .return .., ho | .break .., ho | .block _, ho => by cases ho

/-- A condition with a second branch has a tree even if its first branch was left open. Then the second branch goes with
a condition inside. -/
theorem if_tree {if_ left right else_ : Token} {u v w : List Token} {c : Expr} {yes no : Stmt} {isOpen isOpen' : Bool}
    (hi : if_.kind = .keyword .if_) (hl : left.kind = .mark .leftParen) (h : ReadsExpr .assignment u c)
    (hr : right.kind = .mark .rightParen) (hyes : ReadsStmt v yes isOpen) (he : else_.kind = .keyword .else_)
    (hno : ReadsStmt w no isOpen') :
    ∃ s o, ReadsStmt (if_ :: left :: (u ++ right :: (v ++ else_ :: w))) s o := by
  cases isOpen with
  | false => exact ⟨_, _, .ifElse hi hl h hr hyes he hno⟩
  | true =>
    obtain ⟨s, o, hs⟩ := attach_else he hno hyes rfl
    exact ⟨_, _, .if hi hl h hr hs⟩

/-- A part that may be left out is there or not. -/
theorem optional_tree {w : List Token} (h : w = [] ∨ HasTree .expression w) : ∃ e, ReadsOptional w e := by
  rcases h with rfl | ⟨e, he⟩
  · exact ⟨none, .none⟩
  · exact ⟨some e, .some he⟩

/-- The step for each rule of the grammar. -/
theorem tree_of_means {n : Nonterminal} {w : List Token} (h : Means (rules n) w) : HasTree n w := by
  cases n with
  | program =>
    obtain ⟨ws, rfl, hws⟩ := h
    exact declarations_tree hws
  | declaration =>
    rcases h with ⟨s, h⟩ | ⟨s, h⟩ | ⟨var, u, s, rfl, hv, h⟩ | ⟨s, isOpen, h⟩
    · exact ⟨s, false, h⟩
    · exact ⟨s, false, h⟩
    · exact ⟨s, false, .var hv h⟩
    · exact ⟨s, isOpen, .statement h⟩
  | classDecl =>
    obtain ⟨_, _, rfl, ⟨k, rfl, hk⟩, _, _, rfl, ⟨name, rfl, hn⟩, _, _, rfl, ⟨left, rfl, hl⟩, _, _, rfl,
      ⟨ws, rfl, hws⟩, right, rfl, hr⟩ := h
    obtain ⟨fs, hfs⟩ := methods_tree hws
    exact ⟨_, .class hk hn hl hfs hr⟩
  | funDecl =>
    obtain ⟨_, _, rfl, ⟨k, rfl, hk⟩, f, hf⟩ := h
    exact ⟨_, .function hk hf⟩
  | function =>
    obtain ⟨_, _, rfl, ⟨name, rfl, hn⟩, _, _, rfl, ⟨left, rfl, hl⟩, v, _, rfl, hv, _, _, rfl,
      ⟨right, rfl, hr⟩, body, hbody⟩ := h
    have hps : ∃ ps, ReadsParameters v ps := by
      rcases hv with rfl | ⟨ps, hps, hlen⟩
      · exact ⟨[], .nil⟩
      · exact ⟨ps, .some hps hlen⟩
    obtain ⟨ps, hps⟩ := hps
    exact ⟨_, .mk hn hl hps hr hbody⟩
  | parameters =>
    obtain ⟨_, _, rfl, ⟨p, rfl, hp⟩, ws, rfl, hlen, hws⟩ := h
    obtain ⟨ps, hps, hl⟩ := parameters_tree hp hws
    refine ⟨ps, hps, ?_⟩
    simp only [maxArity] at hlen ⊢
    omega
  | varDecl =>
    obtain ⟨_, _, rfl, ⟨var, rfl, hv⟩, _, _, rfl, ⟨name, rfl, hn⟩, _, _, rfl, hinit, semicolon, rfl, hs⟩ := h
    rcases hinit with rfl | ⟨_, _, rfl, ⟨equals, rfl, hq⟩, e, he⟩
    · exact ⟨var, _, _, rfl, hv, .bare hn hs⟩
    · exact ⟨var, _, _, rfl, hv, .initialized hn hq he hs⟩
  | statement =>
    rcases h with ⟨s, h⟩ | ⟨s, h⟩ | ⟨s, h⟩ | h | h | h | ⟨s, h⟩ | ⟨ss, h⟩
    · exact ⟨s, false, .expression h⟩
    · exact ⟨s, false, h⟩
    · exact ⟨s, false, h⟩
    · exact h
    · exact h
    · exact h
    · exact ⟨s, false, h⟩
    · exact ⟨_, false, .block h⟩
  | exprStmt =>
    obtain ⟨_, _, rfl, ⟨e, he⟩, semicolon, rfl, hs⟩ := h
    exact ⟨_, .mk he hs⟩
  | printStmt =>
    obtain ⟨_, _, rfl, ⟨print, rfl, hp⟩, _, _, rfl, ⟨e, he⟩, semicolon, rfl, hs⟩ := h
    exact ⟨_, .print hp he hs⟩
  | returnStmt =>
    obtain ⟨_, _, rfl, ⟨k, rfl, hk⟩, _, _, rfl, hv, semicolon, rfl, hs⟩ := h
    obtain ⟨value, hvalue⟩ := optional_tree hv
    exact ⟨_, .return hk hvalue hs⟩
  | ifStmt =>
    obtain ⟨_, _, rfl, ⟨k, rfl, hk⟩, _, _, rfl, ⟨left, rfl, hl⟩, _, _, rfl, ⟨c, hc⟩, _, _, rfl,
      ⟨right, rfl, hr⟩, _, _, rfl, ⟨yes, isOpen, hyes⟩, helse⟩ := h
    rcases helse with rfl | ⟨_, _, rfl, ⟨else_, rfl, he⟩, no, isOpen', hno⟩
    · exact ⟨_, _, by simpa using ReadsStmt.if hk hl hc hr hyes⟩
    · exact if_tree hk hl hc hr hyes he hno
  | whileStmt =>
    obtain ⟨_, _, rfl, ⟨k, rfl, hk⟩, _, _, rfl, ⟨left, rfl, hl⟩, _, _, rfl, ⟨c, hc⟩, _, _, rfl,
      ⟨right, rfl, hr⟩, body, isOpen, hbody⟩ := h
    exact ⟨_, _, .while hk hl hc hr hbody⟩
  | forStmt =>
    obtain ⟨_, _, rfl, ⟨k, rfl, hk⟩, _, _, rfl, ⟨left, rfl, hl⟩, v, _, rfl, hstart, _, _, rfl, hc, _, _, rfl,
      ⟨semicolon, rfl, hs⟩, _, _, rfl, hi, _, _, rfl, ⟨right, rfl, hr⟩, body, isOpen, hbody⟩ := h
    have hstart : ∃ start, ReadsForStart v start := by
      rcases hstart with ⟨var, u, s, rfl, hv, h⟩ | ⟨s, h⟩ | ⟨semicolon, rfl, hs⟩
      · exact ⟨_, .var hv h⟩
      · exact ⟨_, .expression h⟩
      · exact ⟨_, .none hs⟩
    obtain ⟨start, hstart⟩ := hstart
    obtain ⟨c, hc⟩ := optional_tree hc
    obtain ⟨increment, hi⟩ := optional_tree hi
    exact ⟨_, _, .for hk hl hstart hc hs hi hr hbody⟩
  | breakStmt =>
    obtain ⟨_, _, rfl, ⟨k, rfl, hk⟩, semicolon, rfl, hs⟩ := h
    exact ⟨_, .break hk hs⟩
  | block =>
    obtain ⟨_, _, rfl, ⟨left, rfl, hl⟩, _, _, rfl, ⟨ws, rfl, hws⟩, right, rfl, hr⟩ := h
    obtain ⟨ss, hss⟩ := declarations_tree hws
    exact ⟨ss, .mk hl hss hr⟩
  | expression => exact h
  | assignment =>
    rcases h with ⟨_, _, rfl, hleft, _, _, rfl, ⟨equals, rfl, hq⟩, value, hv⟩ | ⟨e, he⟩
    · rcases hleft with ⟨u, _, rfl, ⟨object, ho⟩, _, _, rfl, ⟨dot, rfl, hd⟩, name, rfl, hn⟩ | ⟨name, rfl, hn⟩
      · exact ⟨_, by simpa using ReadsExpr.assignProperty ho hd hn hq hv⟩
      · exact ⟨.assign 0 name value, .assignVariable hn hq hv⟩
    · exact ⟨e, .assignmentTernary he⟩
  | ternary =>
    obtain ⟨u, _, rfl, ⟨c, hc⟩, hrest⟩ := h
    rcases hrest with rfl | ⟨_, _, rfl, ⟨question, rfl, hq⟩, _, _, rfl, ⟨a, ha⟩, _, _, rfl,
      ⟨colon, rfl, hcolon⟩, b, hb⟩
    · exact ⟨c, by simpa using .ternaryBinary hc⟩
    · exact ⟨_, .ternary hc hq ha hcolon hb⟩
  | logicOr => exact level_tree (l := .or) h
  | logicAnd => exact level_tree (l := .and) h
  | equality => exact level_tree (l := .equality) h
  | comparison => exact level_tree (l := .comparison) h
  | term => exact level_tree (l := .term) h
  | factor => exact level_tree (l := .factor) h
  | unary =>
    rcases h with ⟨_, _, rfl, ho, e, he⟩ | ⟨e, he⟩
    · rcases ho with ⟨t, rfl, ht⟩ | ⟨t, rfl, ht⟩
      · exact ⟨_, .unary (.inl ht) he⟩
      · exact ⟨_, .unary (.inr ht) he⟩
    · exact ⟨e, .unaryCall he⟩
  | call =>
    obtain ⟨u, _, rfl, ⟨e, he⟩, ws, rfl, hws⟩ := h
    exact suffixes_tree (.callPrimary he) hws
  | arguments =>
    obtain ⟨u, _, rfl, ⟨e, he⟩, ws, rfl, hlen, hws⟩ := h
    obtain ⟨es, hes, hl⟩ := arguments_tree he hws
    refine ⟨es, hes, ?_⟩
    simp only [maxArity] at hlen ⊢
    omega
  | primary =>
    rcases h with ⟨t, rfl, ht⟩ | ⟨t, rfl, ht⟩ | ⟨t, rfl, ht⟩ | ⟨t, rfl, ht⟩ | ⟨t, rfl, value, ht⟩ |
      ⟨t, rfl, text, ht⟩ | ⟨t, rfl, ht⟩ | ⟨_, _, rfl, ⟨left, rfl, hl⟩, _, _, rfl, ⟨e, he⟩, right, rfl, hr⟩
    · exact ⟨.literal (.bool true), .literal (by simp only [Parse.literal?]; rw [ht])⟩
    · exact ⟨.literal (.bool false), .literal (by simp only [Parse.literal?]; rw [ht])⟩
    · exact ⟨.literal .nil, .literal (by simp only [Parse.literal?]; rw [ht])⟩
    · exact ⟨.this 0 t, .this ht⟩
    · exact ⟨.literal (.number value), .literal (by simp only [Parse.literal?]; rw [ht])⟩
    · exact ⟨.literal (.string text), .literal (by simp only [Parse.literal?]; rw [ht])⟩
    · exact ⟨.variable 0 t, .variable ht⟩
    · exact ⟨_, .group hl he hr⟩

/-- What a derivation comes to, by induction on it. -/
theorem means_of_derives {g : Ebnf} {w : List Token} (h : Derives g w) : Means g w := by
  induction h with
  | token h => exact ⟨_, rfl, h⟩
  | rule _ ih => exact tree_of_means ih
  | seq _ _ iha ihb => exact ⟨_, _, rfl, iha, ihb⟩
  | altLeft _ ih => exact .inl ih
  | altRight _ ih => exact .inr ih
  | optNone => exact .inl rfl
  | optSome _ ih => exact .inr ih
  | starNil => exact ⟨[], rfl, by simp⟩
  | starCons _ _ iha ihs =>
    obtain ⟨ws, rfl, hws⟩ := ihs
    exact ⟨_ :: ws, rfl, by simpa using ⟨iha, hws⟩⟩
  | upToNil => exact ⟨[], rfl, Nat.zero_le _, by simp⟩
  | upToCons _ _ iha ihs =>
    obtain ⟨ws, rfl, hl, hws⟩ := ihs
    exact ⟨_ :: ws, rfl, Nat.succ_le_succ hl, by simpa using ⟨iha, hws⟩⟩

/-- A token list follows the grammar of programs exactly if it has a tree. -/
theorem derives_program_iff {w : List Token} :
    Derives (.rule .program) w ↔ ∃ ss, ReadsDeclarations w ss := by
  constructor
  · exact means_of_derives
  · rintro ⟨ss, h⟩
    exact .rule (declarations_derive h)

end LoxLang.Grammar
