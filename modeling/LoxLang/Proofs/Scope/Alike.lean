import Mathlib.Logic.Equiv.Basic
import LoxLang.Proofs.Tree.Names

namespace LoxLang

namespace Scoping

/-- How the names of the local scopes around a place are spelled in the other program, the innermost first. -/
abbrev Spelling := List (Equiv.Perm String)

namespace Spelling

/-- For the innermost scope, or else for that of the globals. -/
def here (Γ : Spelling) : Equiv.Perm String := Γ.headD (.refl _)

/-- For the scope that is so far outward, or for that of the globals if no distance is told. -/
def outward (Γ : Spelling) : Option Nat → Equiv.Perm String
  | some d => Γ.getD d (.refl _)
  | none => .refl _

end Spelling

/-- What two programs that are alike agree on: how far outward each occurrence is bound, and which ways of spelling the
names of a scope there are. -/
structure Agreement where
  distance? : OccurrenceId → Option Nat
  Allowed : Equiv.Perm String → Prop
  this_eq : ∀ κ, Allowed κ → κ "this" = "this"

/-- The expression as the other program has it. -/
def Agreement.expr (A : Agreement) (Γ : Spelling) (e : Expr) : Expr :=
  e.renamed fun i => Γ.outward (A.distance? i)

end Scoping

open Scoping

mutual

/-- Statements that are alike up to the names of locals. Each local scope has its names spelled in another way, one to
one, and so have the occurrences that are bound to it; global names, and those of functions and classes, stay. -/
inductive AlikeStmt (A : Agreement) : Spelling → Stmt → Stmt → Prop
  | expression (Γ : Spelling) (value : Expr) : AlikeStmt A Γ (.expression value) (.expression (A.expr Γ value))
  | print (Γ : Spelling) (value : Expr) : AlikeStmt A Γ (.print value) (.print (A.expr Γ value))
  | var (Γ : Spelling) (name : Token) (initializer : Option Expr) :
    AlikeStmt A Γ (.var name initializer) (.var (name.renamed Γ.here) (initializer.map (A.expr Γ)))
  | block {Γ : Spelling} {κ : Equiv.Perm String} {body body' : List Stmt} (hκ : A.Allowed κ)
    (h : AlikeStmts A (κ :: Γ) body body') : AlikeStmt A Γ (.block body) (.block body')
  | branch {Γ : Spelling} (condition : Expr) {yes yes' : Stmt} (h : AlikeStmt A Γ yes yes') :
    AlikeStmt A Γ (.branch condition yes none) (.branch (A.expr Γ condition) yes' none)
  | branchElse {Γ : Spelling} (condition : Expr) {yes yes' no no' : Stmt} (h : AlikeStmt A Γ yes yes')
    (h' : AlikeStmt A Γ no no') :
    AlikeStmt A Γ (.branch condition yes (some no)) (.branch (A.expr Γ condition) yes' (some no'))
  | loop {Γ : Spelling} (condition : Expr) {body body' : Stmt} (h : AlikeStmt A Γ body body') :
    AlikeStmt A Γ (.loop condition body) (.loop (A.expr Γ condition) body')
  | break (Γ : Spelling) (keyword : Token) : AlikeStmt A Γ (.break keyword) (.break keyword)
  | return (Γ : Spelling) (keyword : Token) (value : Option Expr) :
    AlikeStmt A Γ (.return keyword value) (.return keyword (value.map (A.expr Γ)))
  | function {Γ : Spelling} {f f' : Function} (hname : Γ.here f.name.lexeme = f.name.lexeme)
    (h : AlikeFunction A Γ f f') : AlikeStmt A Γ (.function f) (.function f')
  | class {Γ : Spelling} {name : Token} {methods methods' : List Function} (hname : Γ.here name.lexeme = name.lexeme)
    (h : AlikeFunctions A (.refl _ :: Γ) methods methods') :
    AlikeStmt A Γ (.class name methods) (.class name methods')

inductive AlikeStmts (A : Agreement) : Spelling → List Stmt → List Stmt → Prop
  | nil (Γ : Spelling) : AlikeStmts A Γ [] []
  | cons {Γ : Spelling} {s s' : Stmt} {ss ss' : List Stmt} (h : AlikeStmt A Γ s s') (hs : AlikeStmts A Γ ss ss') :
    AlikeStmts A Γ (s :: ss) (s' :: ss')

inductive AlikeFunction (A : Agreement) : Spelling → Function → Function → Prop
  | mk {Γ : Spelling} {κ : Equiv.Perm String} (name : Token) (parameters : List Token) {body body' : List Stmt}
    (hκ : A.Allowed κ) (h : AlikeStmts A (κ :: Γ) body body') :
    AlikeFunction A Γ (.mk name parameters body) (.mk name (parameters.map (Token.renamed κ)) body')

inductive AlikeFunctions (A : Agreement) : Spelling → List Function → List Function → Prop
  | nil (Γ : Spelling) : AlikeFunctions A Γ [] []
  | cons {Γ : Spelling} {f f' : Function} {fs fs' : List Function} (h : AlikeFunction A Γ f f')
    (hs : AlikeFunctions A Γ fs fs') : AlikeFunctions A Γ (f :: fs) (f' :: fs')

end

namespace AlikeFunction

variable {A : Agreement} {Γ : Spelling} {f f' : Function}

/-- A function keeps its own name; only locals are spelled in another way. -/
theorem name_eq (h : AlikeFunction A Γ f f') : f'.name = f.name := by
  cases h
  rfl

theorem arity_eq (h : AlikeFunction A Γ f f') : f'.parameters.length = f.parameters.length := by
  cases h
  simp [Function.parameters]

theorem isInitializer_eq (h : AlikeFunction A Γ f f') : f'.isInitializer = f.isInitializer := by
  unfold Function.isInitializer
  rw [h.name_eq]

end AlikeFunction

end LoxLang
