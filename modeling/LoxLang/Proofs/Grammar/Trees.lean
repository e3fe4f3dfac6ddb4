import LoxLang.Grammar.Statements

namespace LoxLang.Grammar

/-- The rules for expressions. -/
inductive ExprRule where
  | assignment
  | ternary
  | binary (level : Level)
  | operand (level : Level)
  | unary
  | call
  | primary

mutual

/-- The tokens read as the expression by the rule. Operators of one level lean to the left; assignments, ternaries and
unary operators to the right. Occurrences of names may have any identities. -/
inductive ReadsExpr : ExprRule → List Token → Expr → Prop
  | assignVariable {id : OccurrenceId} {name equals : Token} {w : List Token} {value : Expr} :
    name.kind = .identifier → equals.kind = .mark .equal → ReadsExpr .assignment w value →
    ReadsExpr .assignment (name :: equals :: w) (.assign id name value)
  | assignProperty {dot name equals : Token} {v w : List Token} {object value : Expr} :
    ReadsExpr .call v object → dot.kind = .mark .dot → name.kind = .identifier →
    equals.kind = .mark .equal → ReadsExpr .assignment w value →
    ReadsExpr .assignment (v ++ dot :: name :: equals :: w) (.set object name value)
  | assignmentTernary {w : List Token} {e : Expr} :
    ReadsExpr .ternary w e → ReadsExpr .assignment w e
  | ternary {question colon : Token} {u v w : List Token} {c a b : Expr} :
    ReadsExpr (.binary .or) u c → question.kind = .mark .question → ReadsExpr .ternary v a →
    colon.kind = .mark .colon → ReadsExpr .ternary w b →
    ReadsExpr .ternary (u ++ question :: (v ++ colon :: w)) (.ternary c a b)
  | ternaryBinary {w : List Token} {e : Expr} : ReadsExpr (.binary .or) w e → ReadsExpr .ternary w e
  | binary {l : Level} {operator : Token} {v w : List Token} {left right : Expr} :
    ReadsExpr (.binary l) v left → operator.kind ∈ l.kinds → ReadsExpr (.operand l) w right →
    ReadsExpr (.binary l) (v ++ operator :: w) (l.join left operator right)
  | binaryOperand {l : Level} {w : List Token} {e : Expr} :
    ReadsExpr (.operand l) w e → ReadsExpr (.binary l) w e
  | operandBinary {l tighter : Level} {w : List Token} {e : Expr} :
    l.tighter? = some tighter → ReadsExpr (.binary tighter) w e → ReadsExpr (.operand l) w e
  | operandUnary {l : Level} {w : List Token} {e : Expr} :
    l.tighter? = none → ReadsExpr .unary w e → ReadsExpr (.operand l) w e
  | unary {operator : Token} {w : List Token} {e : Expr} :
    operator.kind = .mark .bang ∨ operator.kind = .mark .minus → ReadsExpr .unary w e →
    ReadsExpr .unary (operator :: w) (.unary operator e)
  | unaryCall {w : List Token} {e : Expr} : ReadsExpr .call w e → ReadsExpr .unary w e
  | call {open_ close : Token} {v w : List Token} {callee : Expr} {given : List Expr} :
    ReadsExpr .call v callee → open_.kind = .mark .leftParen → ReadsArguments w given →
    close.kind = .mark .rightParen →
    ReadsExpr .call (v ++ open_ :: (w ++ [close])) (.call callee close given)
  | get {dot name : Token} {w : List Token} {object : Expr} :
    ReadsExpr .call w object → dot.kind = .mark .dot → name.kind = .identifier →
    ReadsExpr .call (w ++ [dot, name]) (.get object name)
  | callPrimary {w : List Token} {e : Expr} : ReadsExpr .primary w e → ReadsExpr .call w e
  | literal {t : Token} {value : Literal} :
    Parse.literal? t = some value → ReadsExpr .primary [t] (.literal value)
  | this {id : OccurrenceId} {t : Token} :
    t.kind = .keyword .this_ → ReadsExpr .primary [t] (.this id t)
  | variable {id : OccurrenceId} {t : Token} :
    t.kind = .identifier → ReadsExpr .primary [t] (.variable id t)
  | group {open_ close : Token} {w : List Token} {e : Expr} :
    open_.kind = .mark .leftParen → ReadsExpr .assignment w e → close.kind = .mark .rightParen →
    ReadsExpr .primary (open_ :: (w ++ [close])) (.group e)

/-- The tokens read as arguments, possibly none, and not more than the language allows. -/
inductive ReadsArguments : List Token → List Expr → Prop
  | nil : ReadsArguments [] []
  | some {w : List Token} {given : List Expr} :
    ReadsSomeArguments w given → given.length ≤ maxArity → ReadsArguments w given

/-- The tokens read as one argument or more. -/
inductive ReadsSomeArguments : List Token → List Expr → Prop
  | one {w : List Token} {e : Expr} : ReadsExpr .assignment w e → ReadsSomeArguments w [e]
  | cons {comma : Token} {v w : List Token} {e : Expr} {es : List Expr} :
    ReadsExpr .assignment v e → comma.kind = .mark .comma → ReadsSomeArguments w es →
    ReadsSomeArguments (v ++ comma :: w) (e :: es)

end

/-- The tokens read as an expression that may be left out. -/
inductive ReadsOptional : List Token → Option Expr → Prop
  | none : ReadsOptional [] none
  | some {w : List Token} {e : Expr} : ReadsExpr .assignment w e → ReadsOptional w (some e)

/-- The rest of a variable declaration. -/
inductive ReadsVar : List Token → Stmt → Prop
  | bare {name semicolon : Token} :
    name.kind = .identifier → semicolon.kind = .mark .semicolon →
    ReadsVar [name, semicolon] (.var name none)
  | initialized {name equals semicolon : Token} {w : List Token} {e : Expr} :
    name.kind = .identifier → equals.kind = .mark .equal → ReadsExpr .assignment w e →
    semicolon.kind = .mark .semicolon →
    ReadsVar (name :: equals :: (w ++ [semicolon])) (.var name (some e))

inductive ReadsExprStmt : List Token → Stmt → Prop
  | mk {semicolon : Token} {w : List Token} {e : Expr} :
    ReadsExpr .assignment w e → semicolon.kind = .mark .semicolon →
    ReadsExprStmt (w ++ [semicolon]) (.expression e)

/-- The first clause of a `for`, with its semicolon. -/
inductive ReadsForStart : List Token → Option Stmt → Prop
  | none {semicolon : Token} : semicolon.kind = .mark .semicolon → ReadsForStart [semicolon] none
  | var {var : Token} {w : List Token} {s : Stmt} :
    var.kind = .keyword .var_ → ReadsVar w s → ReadsForStart (var :: w) (some s)
  | expression {w : List Token} {s : Stmt} : ReadsExprStmt w s → ReadsForStart w (some s)

/-- The tokens read as one parameter or more. -/
inductive ReadsSomeParameters : List Token → List Token → Prop
  | one {p : Token} : p.kind = .identifier → ReadsSomeParameters [p] [p]
  | cons {p comma : Token} {w ps : List Token} :
    p.kind = .identifier → comma.kind = .mark .comma → ReadsSomeParameters w ps →
    ReadsSomeParameters (p :: comma :: w) (p :: ps)

/-- The tokens read as parameters, possibly none, and not more than the language allows. -/
inductive ReadsParameters : List Token → List Token → Prop
  | nil : ReadsParameters [] []
  | some {w ps : List Token} :
    ReadsSomeParameters w ps → ps.length ≤ maxArity → ReadsParameters w ps

/-- A body with the increment of a `for` after it. -/
def withIncrement (increment : Option Expr) (body : Stmt) : Stmt :=
  match increment with
  | some e => .block [body, .expression e]
  | none => body

/-- A loop with the first clause of a `for` before it. -/
def withStart (start : Option Stmt) (loop : Stmt) : Stmt :=
  match start with
  | some s => .block [s, loop]
  | none => loop

mutual

/-- The tokens read as the statement. It is open when an `else` after it would find an `if` without one, so an `else`
belongs to the nearest `if` it can belong to. A `for` is a `while` with more around it. -/
inductive ReadsStmt : List Token → Stmt → (isOpen : Bool) → Prop
  | expression {w : List Token} {s : Stmt} : ReadsExprStmt w s → ReadsStmt w s false
  | print {print semicolon : Token} {w : List Token} {e : Expr} :
    print.kind = .keyword .print_ → ReadsExpr .assignment w e → semicolon.kind = .mark .semicolon →
    ReadsStmt (print :: (w ++ [semicolon])) (.print e) false
  | return {return_ semicolon : Token} {w : List Token} {value : Option Expr} :
    return_.kind = .keyword .return_ → ReadsOptional w value → semicolon.kind = .mark .semicolon →
    ReadsStmt (return_ :: (w ++ [semicolon])) (.return return_ value) false
  | break {break_ semicolon : Token} :
    break_.kind = .keyword .break_ → semicolon.kind = .mark .semicolon →
    ReadsStmt [break_, semicolon] (.break break_) false
  | if {if_ left right : Token} {v w : List Token} {c : Expr} {yes : Stmt} {isOpen : Bool} :
    if_.kind = .keyword .if_ → left.kind = .mark .leftParen → ReadsExpr .assignment v c →
    right.kind = .mark .rightParen → ReadsStmt w yes isOpen →
    ReadsStmt (if_ :: left :: (v ++ right :: w)) (.branch c yes none) true
  /-- No `if` inside the first branch is left for the `else`. -/
  | ifElse {if_ left right else_ : Token} {u v w : List Token} {c : Expr} {yes no : Stmt}
      {isOpen : Bool} :
    if_.kind = .keyword .if_ → left.kind = .mark .leftParen → ReadsExpr .assignment u c →
    right.kind = .mark .rightParen → ReadsStmt v yes false → else_.kind = .keyword .else_ →
    ReadsStmt w no isOpen →
    ReadsStmt (if_ :: left :: (u ++ right :: (v ++ else_ :: w))) (.branch c yes (some no)) isOpen
  | while {while_ left right : Token} {v w : List Token} {c : Expr} {body : Stmt} {isOpen : Bool} :
    while_.kind = .keyword .while_ → left.kind = .mark .leftParen → ReadsExpr .assignment v c →
    right.kind = .mark .rightParen → ReadsStmt w body isOpen →
    ReadsStmt (while_ :: left :: (v ++ right :: w)) (.loop c body) isOpen
  | for {for_ left semicolon right : Token} {t u v w : List Token} {start : Option Stmt}
      {c increment : Option Expr} {body : Stmt} {isOpen : Bool} :
    for_.kind = .keyword .for_ → left.kind = .mark .leftParen → ReadsForStart t start →
    ReadsOptional u c → semicolon.kind = .mark .semicolon → ReadsOptional v increment →
    right.kind = .mark .rightParen → ReadsStmt w body isOpen →
    ReadsStmt (for_ :: left :: (t ++ (u ++ semicolon :: (v ++ right :: w))))
      (withStart start (.loop (c.getD (.literal (.bool true))) (withIncrement increment body))) isOpen
  | block {w : List Token} {body : List Stmt} :
    ReadsBlock w body → ReadsStmt w (.block body) false

inductive ReadsBlock : List Token → List Stmt → Prop
  | mk {left right : Token} {w : List Token} {body : List Stmt} :
    left.kind = .mark .leftBrace → ReadsDeclarations w body → right.kind = .mark .rightBrace →
    ReadsBlock (left :: (w ++ [right])) body

inductive ReadsDeclaration : List Token → Stmt → (isOpen : Bool) → Prop
  | class {class_ name left right : Token} {w : List Token} {declared : List Function} :
    class_.kind = .keyword .class_ → name.kind = .identifier → left.kind = .mark .leftBrace →
    ReadsMethods w declared → right.kind = .mark .rightBrace →
    ReadsDeclaration (class_ :: name :: left :: (w ++ [right])) (.class name declared) false
  | function {fun_ : Token} {w : List Token} {f : Function} :
    fun_.kind = .keyword .fun_ → ReadsFunction w f →
    ReadsDeclaration (fun_ :: w) (.function f) false
  | var {var : Token} {w : List Token} {s : Stmt} :
    var.kind = .keyword .var_ → ReadsVar w s → ReadsDeclaration (var :: w) s false
  | statement {w : List Token} {s : Stmt} {isOpen : Bool} :
    ReadsStmt w s isOpen → ReadsDeclaration w s isOpen

inductive ReadsDeclarations : List Token → List Stmt → Prop
  | nil : ReadsDeclarations [] []
  | cons {v w : List Token} {s : Stmt} {ss : List Stmt} {isOpen : Bool} :
    ReadsDeclaration v s isOpen → ReadsDeclarations w ss → ReadsDeclarations (v ++ w) (s :: ss)

inductive ReadsFunction : List Token → Function → Prop
  | mk {name left right : Token} {v w : List Token} {ps : List Token} {body : List Stmt} :
    name.kind = .identifier → left.kind = .mark .leftParen → ReadsParameters v ps →
    right.kind = .mark .rightParen → ReadsBlock w body →
    ReadsFunction (name :: left :: (v ++ right :: w)) (.mk name ps body)

inductive ReadsMethods : List Token → List Function → Prop
  | nil : ReadsMethods [] []
  | cons {v w : List Token} {f : Function} {fs : List Function} :
    ReadsFunction v f → ReadsMethods w fs → ReadsMethods (v ++ w) (f :: fs)

end

end LoxLang.Grammar
