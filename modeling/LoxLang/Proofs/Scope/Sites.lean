import LoxLang.Tree.Occurrence
import LoxLang.Binding

namespace LoxLang

namespace Scoping

/-- How a scope comes by a name. -/
inductive Form where
  /-- A variable without an initializer. -/
  | bare
  | initialized
  | parameter
  | function
  | «class»
  /-- The hidden name in the scope around methods. -/
  | this
deriving DecidableEq, Repr

/-- The names a local scope has by now, in the order of their declarations. -/
abbrev Frame := List (String × Form)

/-- What stands around an occurrence of a name: the local scopes, with the names declared there before it. This is what
the text of a program says, whoever walks over it. -/
structure Context where
  /-- The local scopes around a place, the innermost first. -/
  frames : List Frame
  /-- The variable in whose initializer the place is. -/
  initializing : Option String
  place : Binding.Place

/-- The scopes outward to the nearest that has a name, and how it has it. -/
def declaration? (name : String) : List Frame → Option (Nat × Form)
  | [] => none
  | frame :: frames =>
    match frame.lookup name with
    | some form => some (0, form)
    | none => (declaration? name frames).map fun (d, form) => (d + 1, form)

theorem mem_of_declaration? {name : String} {frames : List Frame} {d : Nat} {form : Form}
    (h : declaration? name frames = some (d, form)) : ∃ frame ∈ frames, frame.lookup name = some form := by
  induction frames generalizing d with
  | nil => cases h
  | cons frame frames ih =>
    rw [declaration?] at h
    split at h
    · next hl =>
      cases h
      exact ⟨frame, List.mem_cons_self, hl⟩
    · cases hr : declaration? name frames with
      | none => rw [hr] at h; cases h
      | some r =>
        rw [hr] at h
        cases h
        obtain ⟨f, hf, hl⟩ := ih hr
        exact ⟨f, List.mem_cons_of_mem _ hf, hl⟩

namespace Context

def top : Context := ⟨[], none, ⟨.topLevel, false⟩⟩

/-- A name declared in the innermost scope. Global names are not kept. -/
def declare (c : Context) (name : Token) (form : Form) : Context :=
  match c.frames with
  | [] => c
  | frame :: frames => { c with frames := (frame ++ [(name.lexeme, form)]) :: frames }

def inInitializer (c : Context) (name : Token) : Context := { c with initializing := some name.lexeme }

/-- In a scope of its own. -/
def inside (c : Context) (frame : Frame) : Context := { c with frames := frame :: c.frames }

/-- In the scope around the methods of a class. -/
def inClass (c : Context) : Context := c.inside [("this", .this)]

/-- In the body of a function, whose scope has the parameters from the start. -/
def inBody (c : Context) (place : Binding.Place) (parameters : List Token) : Context :=
  { c.inside (parameters.map fun p => (p.lexeme, .parameter)) with place := place }

/-- The innermost scope is a local one without the name. -/
def Fresh (c : Context) (name : String) : Prop := ∀ frame ∈ c.frames.head?, frame.lookup name = none

end Context

/-- An occurrence of a name with what stands around it. -/
structure Site where
  occurrence : Occurrence
  context : Context

namespace Site

def id (σ : Site) : OccurrenceId := σ.occurrence.id

def name (σ : Site) : String := σ.occurrence.token.lexeme

/-- The site is in the initializer of the local variable of its own name. -/
def InOwnInitializer (σ : Site) : Prop :=
  σ.context.initializing = some σ.name ∧ σ.context.frames ≠ []

instance (σ : Site) : Decidable σ.InOwnInitializer :=
  inferInstanceAs (Decidable (σ.context.initializing = some σ.name ∧ σ.context.frames ≠ []))

def declaration? (σ : Site) : Option (Nat × Form) := Scoping.declaration? σ.name σ.context.frames

/-- The scopes outward to the one that the site is bound to. A variable counts as declared in its own
initializer. -/
def distance? (σ : Site) : Option Nat :=
  if σ.InOwnInitializer then some 0 else σ.declaration?.map Prod.fst

/-- The site is inside a function. -/
def Inner (σ : Site) : Prop := σ.context.place.body ≠ .topLevel

end Site

end Scoping

open Scoping

mutual

def Expr.sites (c : Context) : Expr → List Site
  | .literal _ => []
  | .group inner => inner.sites c
  | .unary _ operand => operand.sites c
  | .binary left _ right => left.sites c ++ right.sites c
  | .logical left _ right => left.sites c ++ right.sites c
  | .ternary condition thenBranch elseBranch =>
    condition.sites c ++ thenBranch.sites c ++ elseBranch.sites c
  | .variable id name => [⟨⟨.variable, id, name⟩, c⟩]
  | .assign id name value => value.sites c ++ [⟨⟨.assign, id, name⟩, c⟩]
  | .this id keyword => [⟨⟨.this, id, keyword⟩, c⟩]
  | .call callee _ arguments => callee.sites c ++ Expr.sitesAll c arguments
  | .get object _ => object.sites c
  | .set object _ value => value.sites c ++ object.sites c

def Expr.sitesAll (c : Context) : List Expr → List Site
  | [] => []
  | e :: es => e.sites c ++ Expr.sitesAll c es

end

/-- The context after a statement. -/
def Scoping.Context.after (c : Context) : Stmt → Context
  | .var name none => c.declare name .bare
  | .var name (some _) => c.declare name .initialized
  | .function f => c.declare f.name .function
  | .class name _ => c.declare name .class
  | _ => c

def Scoping.Context.afterAll (c : Context) (ss : List Stmt) : Context := ss.foldl Context.after c

/-- The statement is a declaration, which has its place in blocks and at the top level only. -/
def Stmt.isDeclaration : Stmt → Bool
  | .var _ _ => true
  | .function _ => true
  | .class _ _ => true
  | _ => false

mutual

def Stmt.sites (c : Context) : Stmt → List Site
  | .expression value => value.sites c
  | .print value => value.sites c
  | .var _ none => []
  | .var name (some value) => value.sites (c.inInitializer name)
  | .block body => Stmt.sitesAll (c.inside []) body
  | .branch condition thenBranch none => condition.sites c ++ thenBranch.sites c
  | .branch condition thenBranch (some elseBranch) =>
    condition.sites c ++ thenBranch.sites c ++ elseBranch.sites c
  | .loop condition body => condition.sites c ++ body.sites c
  | .break _ => []
  | .return _ none => []
  | .return _ (some value) => value.sites c
  | .function f => f.sites ⟨.function, c.place.inClass⟩ (c.declare f.name .function)
  | .class name methods => Function.sitesAll (c.declare name .class).inClass methods

def Stmt.sitesAll (c : Context) : List Stmt → List Site
  | [] => []
  | s :: ss => s.sites c ++ Stmt.sitesAll (c.after s) ss

def Function.sites (place : Binding.Place) (c : Context) : Function → List Site
  | .mk _ parameters body => Stmt.sitesAll (c.inBody place parameters) body

def Function.sitesAll (c : Context) : List Function → List Site
  | [] => []
  | f :: fs => f.sites (Binding.methodPlace f) c ++ Function.sitesAll c fs

end

mutual

/-- Declarations stand in blocks, not as the bodies of branches and loops. -/
def Stmt.Formed : Stmt → Prop
  | .block body => Stmt.FormedAll body
  | .branch _ thenBranch none => thenBranch.isDeclaration = false ∧ thenBranch.Formed
  | .branch _ thenBranch (some elseBranch) =>
    (thenBranch.isDeclaration = false ∧ thenBranch.Formed) ∧
      elseBranch.isDeclaration = false ∧ elseBranch.Formed
  | .loop _ body => body.isDeclaration = false ∧ body.Formed
  | .function f => f.Formed
  | .class _ methods => Function.FormedAll methods
  | _ => True

def Stmt.FormedAll : List Stmt → Prop
  | [] => True
  | s :: ss => s.Formed ∧ Stmt.FormedAll ss

def Function.Formed : Function → Prop
  | .mk _ _ body => Stmt.FormedAll body

def Function.FormedAll : List Function → Prop
  | [] => True
  | f :: fs => f.Formed ∧ Function.FormedAll fs

end

mutual

/-- No local scope gets a name twice. -/
def Stmt.Tidy (c : Context) : Stmt → Prop
  | .var name _ => c.Fresh name.lexeme
  | .block body => Stmt.TidyAll (c.inside []) body
  | .branch _ thenBranch none => thenBranch.Tidy c
  | .branch _ thenBranch (some elseBranch) => thenBranch.Tidy c ∧ elseBranch.Tidy c
  | .loop _ body => body.Tidy c
  | .function f =>
    c.Fresh f.name.lexeme ∧ f.Tidy ⟨.function, c.place.inClass⟩ (c.declare f.name .function)
  | .class name methods => c.Fresh name.lexeme ∧ Function.TidyAll (c.declare name .class).inClass methods
  | _ => True

def Stmt.TidyAll (c : Context) : List Stmt → Prop
  | [] => True
  | s :: ss => s.Tidy c ∧ Stmt.TidyAll (c.after s) ss

def Function.Tidy (place : Binding.Place) (c : Context) : Function → Prop
  | .mk _ parameters body =>
    (parameters.map Token.lexeme).Nodup ∧ Stmt.TidyAll (c.inBody place parameters) body

def Function.TidyAll (c : Context) : List Function → Prop
  | [] => True
  | f :: fs => f.Tidy (Binding.methodPlace f) c ∧ Function.TidyAll c fs

end

namespace Scoping.Context

variable (c : Context)

theorem declare_place (name : Token) (form : Form) : (c.declare name form).place = c.place := by
  unfold declare
  split <;> rfl

theorem declare_initializing (name : Token) (form : Form) :
    (c.declare name form).initializing = c.initializing := by
  unfold declare
  split <;> rfl

/-- A declaration is in the innermost scope only. -/
theorem declare_tail (name : Token) (form : Form) : (c.declare name form).frames.tail = c.frames.tail := by
  unfold declare
  split
  · rfl
  · next h => rw [h]; rfl

theorem after_place (s : Stmt) : (c.after s).place = c.place := by
  unfold after
  split <;> first | rfl | exact declare_place ..

theorem after_initializing (s : Stmt) : (c.after s).initializing = c.initializing := by
  unfold after
  split <;> first | rfl | exact declare_initializing ..

theorem after_tail (s : Stmt) : (c.after s).frames.tail = c.frames.tail := by
  unfold after
  split <;> first | rfl | exact declare_tail ..

theorem afterAll_initializing (ss : List Stmt) : (c.afterAll ss).initializing = c.initializing := by
  induction ss generalizing c with
  | nil => rfl
  | cons s ss ih => exact (ih (c.after s)).trans (after_initializing c s)

theorem afterAll_tail (ss : List Stmt) : (c.afterAll ss).frames.tail = c.frames.tail := by
  induction ss generalizing c with
  | nil => rfl
  | cons s ss ih => exact (ih (c.after s)).trans (after_tail c s)

variable {c}

theorem after_of_not_declaration {s : Stmt} (h : s.isDeclaration = false) : c.after s = c := by
  cases s <;> first | rfl | cases h

end Scoping.Context

/-- The body of a method is not at the top level. -/
theorem Binding.methodPlace_body (f : Function) : (Binding.methodPlace f).body ≠ .topLevel := by
  unfold Binding.methodPlace
  split <;> nofun

mutual

/-- All occurrences of an expression stand at the same place. -/
theorem Expr.sites_context (c : Context) : (e : Expr) → ∀ σ ∈ e.sites c, σ.context = c
  | .literal _ => by rintro σ ⟨⟩
  | .group inner => inner.sites_context c
  | .unary _ operand => operand.sites_context c
  | .binary left _ right | .logical left _ right => fun σ hσ =>
    (List.mem_append.1 hσ).elim (left.sites_context c σ) (right.sites_context c σ)
  | .ternary condition thenBranch elseBranch => fun σ hσ =>
    (List.mem_append.1 hσ).elim (fun hσ => (List.mem_append.1 hσ).elim (condition.sites_context c σ)
      (thenBranch.sites_context c σ)) (elseBranch.sites_context c σ)
  | .variable _ _ | .this _ _ => by
    intro σ hσ
    rw [List.mem_singleton.1 hσ]
  | .assign _ _ value => by
    intro σ hσ
    rcases List.mem_append.1 hσ with hσ | hσ
    · exact value.sites_context c σ hσ
    · rw [List.mem_singleton.1 hσ]
  | .call callee _ arguments => fun σ hσ =>
    (List.mem_append.1 hσ).elim (callee.sites_context c σ) (Expr.sitesAll_context c arguments σ)
  | .get object _ => object.sites_context c
  | .set object _ value => fun σ hσ =>
    (List.mem_append.1 hσ).elim (value.sites_context c σ) (object.sites_context c σ)

theorem Expr.sitesAll_context (c : Context) : (es : List Expr) → ∀ σ ∈ Expr.sitesAll c es, σ.context = c
  | [] => by rintro σ ⟨⟩
  | e :: es => fun σ hσ =>
    (List.mem_append.1 hσ).elim (e.sites_context c σ) (Expr.sitesAll_context c es σ)

end

theorem Expr.sites_inner {c : Context} (hc : c.place.body ≠ .topLevel) (e : Expr) : ∀ σ ∈ e.sites c, σ.Inner := by
  intro σ hσ
  unfold Site.Inner
  rw [e.sites_context c σ hσ]
  exact hc

mutual

/-- What is inside a function is inside of it all the way. -/
theorem Stmt.sites_inner {c : Context} (hc : c.place.body ≠ .topLevel) : (s : Stmt) → ∀ σ ∈ s.sites c, σ.Inner
  | .expression value | .print value => value.sites_inner hc
  | .var _ none => by rintro σ ⟨⟩
  | .var name (some value) => value.sites_inner (c := c.inInitializer name) hc
  | .block body => Stmt.sitesAll_inner (c := c.inside []) hc body
  | .branch condition thenBranch none => fun σ hσ =>
    (List.mem_append.1 hσ).elim (condition.sites_inner hc σ) (thenBranch.sites_inner hc σ)
  | .branch condition thenBranch (some elseBranch) => fun σ hσ =>
    (List.mem_append.1 hσ).elim (fun hσ => (List.mem_append.1 hσ).elim (condition.sites_inner hc σ)
      (thenBranch.sites_inner hc σ)) (elseBranch.sites_inner hc σ)
  | .loop condition body => fun σ hσ =>
    (List.mem_append.1 hσ).elim (condition.sites_inner hc σ) (body.sites_inner hc σ)
  | .break _ => by rintro σ ⟨⟩
  | .return _ none => by rintro σ ⟨⟩
  | .return _ (some value) => value.sites_inner hc
  | .function f => f.sites_inner (show Binding.Body.function ≠ .topLevel from nofun) _
  | .class _ methods => Function.sitesAll_inner _ methods

theorem Stmt.sitesAll_inner {c : Context} (hc : c.place.body ≠ .topLevel) :
    (ss : List Stmt) → ∀ σ ∈ Stmt.sitesAll c ss, σ.Inner
  | [] => by rintro σ ⟨⟩
  | s :: ss => fun σ hσ =>
    (List.mem_append.1 hσ).elim (s.sites_inner hc σ)
      (Stmt.sitesAll_inner (c := c.after s) (c.after_place s ▸ hc) ss σ)

theorem Function.sites_inner {place : Binding.Place} (hp : place.body ≠ .topLevel) :
    (f : Function) → (c : Context) → ∀ σ ∈ f.sites place c, σ.Inner
  | .mk _ parameters body, c => Stmt.sitesAll_inner (c := c.inBody place parameters) hp body

theorem Function.sitesAll_inner (c : Context) : (fs : List Function) → ∀ σ ∈ Function.sitesAll c fs, σ.Inner
  | [] => by rintro σ ⟨⟩
  | f :: fs => fun σ hσ =>
    (List.mem_append.1 hσ).elim (f.sites_inner (Binding.methodPlace_body f) c σ)
      (Function.sitesAll_inner c fs σ)

end

/-- Sites with the occurrences told. -/
def Scoping.SitesOf (σs : List Site) (os : List Occurrence) : Prop := (σs.map Site.occurrence).Perm os

theorem Scoping.SitesOf.append {σs τs : List Site} {os us : List Occurrence} (h : SitesOf σs os)
    (h' : SitesOf τs us) : SitesOf (σs ++ τs) (os ++ us) := by
  unfold SitesOf at *
  rw [List.map_append]
  exact h.append h'

theorem Scoping.SitesOf.append_comm {σs τs : List Site} {os us : List Occurrence} (h : SitesOf σs os)
    (h' : SitesOf τs us) : SitesOf (σs ++ τs) (us ++ os) :=
  (h.append h').trans List.perm_append_comm

mutual

theorem Expr.sitesOf (c : Context) : (e : Expr) → SitesOf (e.sites c) e.occurrences
  | .literal _ => .refl _
  | .group inner => inner.sitesOf c
  | .unary _ operand => operand.sitesOf c
  | .binary left _ right | .logical left _ right => (left.sitesOf c).append (right.sitesOf c)
  | .ternary condition thenBranch elseBranch =>
    ((condition.sitesOf c).append (thenBranch.sitesOf c)).append (elseBranch.sitesOf c)
  | .variable _ _ => .refl _
  | .assign _ _ value => (value.sitesOf c).append_comm (.refl _)
  | .this _ _ => .refl _
  | .call callee _ arguments => (callee.sitesOf c).append (Expr.sitesOfAll c arguments)
  | .get object _ => object.sitesOf c
  | .set object _ value => (value.sitesOf c).append_comm (object.sitesOf c)

theorem Expr.sitesOfAll (c : Context) : (es : List Expr) → SitesOf (Expr.sitesAll c es) (Expr.occurrencesAll es)
  | [] => .refl _
  | e :: es => (e.sitesOf c).append (Expr.sitesOfAll c es)

end

mutual

/-- The sites of a tree are its occurrences, though not in the same order: a right side is met before its target. -/
theorem Stmt.sitesOf (c : Context) : (s : Stmt) → SitesOf (s.sites c) s.occurrences
  | .expression value => value.sitesOf c
  | .print value => value.sitesOf c
  | .var _ none => .refl _
  | .var name (some value) => value.sitesOf (c.inInitializer name)
  | .block body => Stmt.sitesOfAll (c.inside []) body
  | .branch condition thenBranch none => (condition.sitesOf c).append (thenBranch.sitesOf c)
  | .branch condition thenBranch (some elseBranch) =>
    ((condition.sitesOf c).append (thenBranch.sitesOf c)).append (elseBranch.sitesOf c)
  | .loop condition body => (condition.sitesOf c).append (body.sitesOf c)
  | .break _ => .refl _
  | .return _ none => .refl _
  | .return _ (some value) => value.sitesOf c
  | .function f => f.sitesOf _ _
  | .class _ methods => Function.sitesOfAll _ methods

theorem Stmt.sitesOfAll (c : Context) : (ss : List Stmt) → SitesOf (Stmt.sitesAll c ss) (Stmt.occurrencesAll ss)
  | [] => .refl _
  | s :: ss => (s.sitesOf c).append (Stmt.sitesOfAll (c.after s) ss)

theorem Function.sitesOf (place : Binding.Place) (c : Context) :
    (f : Function) → SitesOf (f.sites place c) f.occurrences
  | .mk _ parameters body => Stmt.sitesOfAll (c.inBody place parameters) body

theorem Function.sitesOfAll (c : Context) :
    (fs : List Function) → SitesOf (Function.sitesAll c fs) (Function.occurrencesAll fs)
  | [] => .refl _
  | f :: fs => (f.sitesOf _ c).append (Function.sitesOfAll c fs)

end

end LoxLang
