import LoxLang.Proofs.Grammar.Segments

namespace LoxLang.Grammar
open Parse

mutual

/-- The tokens `w` are read as the statement, and `w'` are the same with the bad segments `us` put inside, in this
order. -/
inductive StrewnStmt :
    (w w' : List Token) → Stmt → (isOpen : Bool) → (us : List (List Token)) → Prop
  | plain {w : List Token} {s : Stmt} {isOpen : Bool} : ReadsStmt w s isOpen → StrewnStmt w w s isOpen []
  | if {if_ left right : Token} {v w w' : List Token} {c : Expr} {yes : Stmt} {isOpen : Bool} {us : List (List Token)} :
    if_.kind = .keyword .if_ → left.kind = .mark .leftParen → ReadsExpr .assignment v c →
    right.kind = .mark .rightParen → StrewnStmt w w' yes isOpen us →
    StrewnStmt (if_ :: left :: (v ++ right :: w)) (if_ :: left :: (v ++ right :: w')) (.branch c yes none) true us
  | ifElse {if_ left right else_ : Token} {u v v' w w' : List Token} {c : Expr} {yes no : Stmt} {isOpen : Bool}
      {us us' : List (List Token)} :
    if_.kind = .keyword .if_ → left.kind = .mark .leftParen → ReadsExpr .assignment u c →
    right.kind = .mark .rightParen → StrewnStmt v v' yes false us → else_.kind = .keyword .else_ →
    StrewnStmt w w' no isOpen us' →
    StrewnStmt (if_ :: left :: (u ++ right :: (v ++ else_ :: w))) (if_ :: left :: (u ++ right :: (v' ++ else_ :: w')))
      (.branch c yes (some no)) isOpen (us ++ us')
  | while {while_ left right : Token} {v w w' : List Token} {c : Expr} {body : Stmt} {isOpen : Bool}
      {us : List (List Token)} :
    while_.kind = .keyword .while_ → left.kind = .mark .leftParen → ReadsExpr .assignment v c →
    right.kind = .mark .rightParen → StrewnStmt w w' body isOpen us →
    StrewnStmt (while_ :: left :: (v ++ right :: w)) (while_ :: left :: (v ++ right :: w')) (.loop c body) isOpen us
  | for {for_ left semicolon right : Token} {t u v w w' : List Token} {start : Option Stmt}
      {c increment : Option Expr} {body : Stmt} {isOpen : Bool} {us : List (List Token)} :
    for_.kind = .keyword .for_ → left.kind = .mark .leftParen → ReadsForStart t start →
    ReadsOptional u c → semicolon.kind = .mark .semicolon → ReadsOptional v increment →
    right.kind = .mark .rightParen → StrewnStmt w w' body isOpen us →
    StrewnStmt (for_ :: left :: (t ++ (u ++ semicolon :: (v ++ right :: w))))
      (for_ :: left :: (t ++ (u ++ semicolon :: (v ++ right :: w'))))
      (withStart start (.loop (c.getD (.literal (.bool true))) (withIncrement increment body))) isOpen us
  | block {left right : Token} {w w' : List Token} {body : List Stmt} {us : List (List Token)} :
    left.kind = .mark .leftBrace → StrewnDeclarations w w' body us → right.kind = .mark .rightBrace →
    StrewnStmt (left :: (w ++ [right])) (left :: (w' ++ [right])) (.block body) false us

inductive StrewnDeclaration :
    (w w' : List Token) → Stmt → (isOpen : Bool) → (us : List (List Token)) → Prop
  | plain {w : List Token} {s : Stmt} {isOpen : Bool} :
    ReadsDeclaration w s isOpen → StrewnDeclaration w w s isOpen []
  | class {class_ name left right : Token} {w w' : List Token} {declared : List Function} {us : List (List Token)} :
    class_.kind = .keyword .class_ → name.kind = .identifier → left.kind = .mark .leftBrace →
    StrewnMethods w w' declared us → right.kind = .mark .rightBrace →
    StrewnDeclaration (class_ :: name :: left :: (w ++ [right])) (class_ :: name :: left :: (w' ++ [right]))
      (.class name declared) false us
  | function {fun_ : Token} {w w' : List Token} {f : Function} {us : List (List Token)} :
    fun_.kind = .keyword .fun_ → StrewnFunction w w' f us →
    StrewnDeclaration (fun_ :: w) (fun_ :: w') (.function f) false us
  | statement {w w' : List Token} {s : Stmt} {isOpen : Bool} {us : List (List Token)} :
    StrewnStmt w w' s isOpen us → StrewnDeclaration w w' s isOpen us

inductive StrewnDeclarations :
    (w w' : List Token) → List Stmt → (us : List (List Token)) → Prop
  | nil : StrewnDeclarations [] [] [] []
  | cons {v v' w w' : List Token} {s : Stmt} {ss : List Stmt} {isOpen : Bool} {us us' : List (List Token)} :
    StrewnDeclaration v v' s isOpen us → StrewnDeclarations w w' ss us' →
    StrewnDeclarations (v ++ w) (v' ++ w') (s :: ss) (us ++ us')
  | segment {u w w' : List Token} {semicolon : Token} {ss : List Stmt} {us : List (List Token)} :
    BadSegment u semicolon → StrewnDeclarations w w' ss us →
    StrewnDeclarations w (u ++ semicolon :: w') ss ((u ++ [semicolon]) :: us)

inductive StrewnFunction :
    (w w' : List Token) → Function → (us : List (List Token)) → Prop
  | mk {name left right brace close : Token} {v w w' ps : List Token} {body : List Stmt} {us : List (List Token)} :
    name.kind = .identifier → left.kind = .mark .leftParen → ReadsParameters v ps →
    right.kind = .mark .rightParen → brace.kind = .mark .leftBrace → StrewnDeclarations w w' body us →
    close.kind = .mark .rightBrace →
    StrewnFunction (name :: left :: (v ++ right :: brace :: (w ++ [close])))
      (name :: left :: (v ++ right :: brace :: (w' ++ [close]))) (.mk name ps body) us

inductive StrewnMethods :
    (w w' : List Token) → List Function → (us : List (List Token)) → Prop
  | nil : StrewnMethods [] [] [] []
  | cons {v v' w w' : List Token} {f : Function} {fs : List Function} {us us' : List (List Token)} :
    StrewnFunction v v' f us → StrewnMethods w w' fs us' →
    StrewnMethods (v ++ w) (v' ++ w') (f :: fs) (us ++ us')

end

mutual

theorem StrewnStmt.reads {w w' : List Token} {s : Stmt} {isOpen : Bool} {us : List (List Token)} :
    StrewnStmt w w' s isOpen us → ReadsStmt w s isOpen
  | .plain h => h
  | .if hi hl h hr hyes => .if hi hl h hr hyes.reads
  | .ifElse hi hl h hr hyes he hno => .ifElse hi hl h hr hyes.reads he hno.reads
  | .while hw hl h hr hbody => .while hw hl h hr hbody.reads
  | .for hf hl hstart hc hs hi hr hbody => .for hf hl hstart hc hs hi hr hbody.reads
  | .block hl h hr => .block (.mk hl h.reads hr)

theorem StrewnDeclaration.reads {w w' : List Token} {s : Stmt} {isOpen : Bool} {us : List (List Token)} :
    StrewnDeclaration w w' s isOpen us → ReadsDeclaration w s isOpen
  | .plain h => h
  | .class hk hn hl h hr => .class hk hn hl h.reads hr
  | .function hk h => .function hk h.reads
  | .statement h => .statement h.reads

/-- Without the segments there is the program itself. -/
theorem StrewnDeclarations.reads {w w' : List Token} {ss : List Stmt} {us : List (List Token)} :
    StrewnDeclarations w w' ss us → ReadsDeclarations w ss
  | .nil => .nil
  | .cons h hs => .cons h.reads hs.reads
  | .segment _ hs => hs.reads

theorem StrewnFunction.reads {w w' : List Token} {f : Function} {us : List (List Token)} :
    StrewnFunction w w' f us → ReadsFunction w f
  | .mk hn hl hps hr hb h hc => .mk hn hl hps hr (.mk hb h.reads hc)

theorem StrewnMethods.reads {w w' : List Token} {fs : List Function} {us : List (List Token)} :
    StrewnMethods w w' fs us → ReadsMethods w fs
  | .nil => .nil
  | .cons h hs => .cons h.reads hs.reads

end

/-- Nothing has to be put anywhere. -/
theorem StrewnDeclarations.of_reads {w : List Token} {ss : List Stmt} (h : ReadsDeclarations w ss) :
    StrewnDeclarations w w ss [] := by
  induction ss generalizing w with
  | nil =>
    cases h
    exact .nil
  | cons s ss ih =>
    cases h with
    | cons h hs => exact .cons (.plain h) (ih hs)

end LoxLang.Grammar
