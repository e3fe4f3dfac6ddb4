import LoxLang.Tree.Basic

namespace LoxLang

/-- The same token with another text. -/
def Token.renamed (f : String → String) (t : Token) : Token := { t with lexeme := f t.lexeme }

@[simp]
theorem Token.renamed_lexeme (f : String → String) (t : Token) : (t.renamed f).lexeme = f t.lexeme := rfl

theorem Token.renamed_congr {f g : String → String} {t : Token} (h : f t.lexeme = g t.lexeme) :
    t.renamed f = t.renamed g := by
  unfold renamed
  rw [h]

mutual

/-- The same expression, each of its occurrences with the name that it is told to have. -/
def Expr.renamed (f : OccurrenceId → String → String) : Expr → Expr
  | .literal value => .literal value
  | .group inner => .group (inner.renamed f)
  | .unary operator operand => .unary operator (operand.renamed f)
  | .binary left operator right => .binary (left.renamed f) operator (right.renamed f)
  | .logical left operator right => .logical (left.renamed f) operator (right.renamed f)
  | .ternary condition thenBranch elseBranch =>
    .ternary (condition.renamed f) (thenBranch.renamed f) (elseBranch.renamed f)
  | .variable i name => .variable i (name.renamed (f i))
  | .assign i name value => .assign i (name.renamed (f i)) (value.renamed f)
  | .this i keyword => .this i (keyword.renamed (f i))
  | .call callee paren arguments => .call (callee.renamed f) paren (Expr.renamedAll f arguments)
  | .get object name => .get (object.renamed f) name
  | .set object name value => .set (object.renamed f) name (value.renamed f)

def Expr.renamedAll (f : OccurrenceId → String → String) : List Expr → List Expr
  | [] => []
  | e :: es => e.renamed f :: Expr.renamedAll f es

end

mutual

/-- The names of variables are as told, and `this` is called `this`. -/
def Expr.Named (P : Token → Prop) : Expr → Prop
  | .literal _ => True
  | .group inner => inner.Named P
  | .unary _ operand => operand.Named P
  | .binary left _ right => left.Named P ∧ right.Named P
  | .logical left _ right => left.Named P ∧ right.Named P
  | .ternary condition thenBranch elseBranch =>
    (condition.Named P ∧ thenBranch.Named P) ∧ elseBranch.Named P
  | .variable _ name => P name
  | .assign _ name value => P name ∧ value.Named P
  | .this _ keyword => keyword.lexeme = "this"
  | .call callee _ arguments => callee.Named P ∧ Expr.NamedAll P arguments
  | .get object _ => object.Named P
  | .set object _ value => object.Named P ∧ value.Named P

def Expr.NamedAll (P : Token → Prop) : List Expr → Prop
  | [] => True
  | e :: es => e.Named P ∧ Expr.NamedAll P es

end

mutual

/-- And so are the names declared. -/
def Stmt.Named (P : Token → Prop) : Stmt → Prop
  | .expression value => value.Named P
  | .print value => value.Named P
  | .var name none => P name
  | .var name (some value) => P name ∧ value.Named P
  | .block body => Stmt.NamedAll P body
  | .branch condition thenBranch none => condition.Named P ∧ thenBranch.Named P
  | .branch condition thenBranch (some elseBranch) =>
    (condition.Named P ∧ thenBranch.Named P) ∧ elseBranch.Named P
  | .loop condition body => condition.Named P ∧ body.Named P
  | .break _ => True
  | .return _ none => True
  | .return _ (some value) => value.Named P
  | .function declaration => declaration.Named P
  | .class name methods => P name ∧ Function.NamedAll P methods

def Stmt.NamedAll (P : Token → Prop) : List Stmt → Prop
  | [] => True
  | s :: ss => s.Named P ∧ Stmt.NamedAll P ss

def Function.Named (P : Token → Prop) : Function → Prop
  | .mk name parameters body => P name ∧ (∀ p ∈ parameters, P p) ∧ Stmt.NamedAll P body

def Function.NamedAll (P : Token → Prop) : List Function → Prop
  | [] => True
  | f :: fs => f.Named P ∧ Function.NamedAll P fs

end

section

variable {P : Token → Prop} {f g : OccurrenceId → String → String}

mutual

/-- What the renaming does to other names does not matter. -/
theorem Expr.renamed_congr (hthis : ∀ i, f i "this" = g i "this") (h : ∀ t, P t → ∀ i, f i t.lexeme = g i t.lexeme) :
    (e : Expr) → e.Named P → e.renamed f = e.renamed g
  | .literal _, _ => rfl
  | .group inner, he => by
    rw [renamed, renamed, inner.renamed_congr hthis h he]
  | .unary _ operand, he => by
    rw [renamed, renamed, operand.renamed_congr hthis h he]
  | .binary left _ right, he | .logical left _ right, he | .set left _ right, he => by
    rw [renamed, renamed, left.renamed_congr hthis h he.1, right.renamed_congr hthis h he.2]
  | .ternary condition thenBranch elseBranch, he => by
    rw [renamed, renamed, condition.renamed_congr hthis h he.1.1, thenBranch.renamed_congr hthis h he.1.2,
      elseBranch.renamed_congr hthis h he.2]
  | .variable i name, he => by
    rw [renamed, renamed, Token.renamed_congr (h name he i)]
  | .assign i name value, he => by
    rw [renamed, renamed, Token.renamed_congr (h name he.1 i), value.renamed_congr hthis h he.2]
  | .this i keyword, he => by
    have hk : keyword.lexeme = "this" := he
    have hi : f i keyword.lexeme = g i keyword.lexeme := by rw [hk, hthis]
    rw [renamed, renamed, Token.renamed_congr hi]
  | .call callee _ arguments, he => by
    rw [renamed, renamed, callee.renamed_congr hthis h he.1, Expr.renamedAll_congr hthis h arguments he.2]
  | .get object _, he => by
    rw [renamed, renamed, object.renamed_congr hthis h he]

theorem Expr.renamedAll_congr (hthis : ∀ i, f i "this" = g i "this")
    (h : ∀ t, P t → ∀ i, f i t.lexeme = g i t.lexeme) :
    (es : List Expr) → Expr.NamedAll P es → Expr.renamedAll f es = Expr.renamedAll g es
  | [], _ => rfl
  | e :: es, he => by
    rw [Expr.renamedAll, Expr.renamedAll, e.renamed_congr hthis h he.1, Expr.renamedAll_congr hthis h es he.2]

end

end

end LoxLang
