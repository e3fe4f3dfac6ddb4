import LoxLang.Proofs.Scope.Walk
import LoxLang.Proofs.Scope.Words
import LoxLang.Proofs.Tree.Names

namespace LoxLang
open Scoping

/-- Which of the scopes around a place are around methods, from the inside out; the last one has the globals. -/
abbrev Shape := List Bool

/-- What the texts of programs say: the distances of occurrences, and the functions that statements declare. -/
structure Notes where
  distance : OccurrenceId → Nat → Prop
  function : Function → Prop

structure Notes.Within (N N' : Notes) : Prop where
  distance : ∀ id d, N.distance id d → N'.distance id d
  function : ∀ f, N.function f → N'.function f

variable {N N' : Notes}

mutual

/-- Each `this` has the distance of the nearest scope around methods, and no assignment is to the name. -/
def Expr.Aimed (N : Notes) (shape : Shape) : Expr → Prop
  | .literal _ => True
  | .group inner => inner.Aimed N shape
  | .unary _ operand => operand.Aimed N shape
  | .binary left _ right => left.Aimed N shape ∧ right.Aimed N shape
  | .logical left _ right => left.Aimed N shape ∧ right.Aimed N shape
  | .ternary condition thenBranch elseBranch =>
    condition.Aimed N shape ∧ thenBranch.Aimed N shape ∧ elseBranch.Aimed N shape
  | .variable _ _ => True
  | .assign _ name value => name.lexeme ≠ "this" ∧ value.Aimed N shape
  | .this id keyword => keyword.lexeme = "this" ∧ ∃ d, shape.findIdx? (·) = some d ∧ N.distance id d
  | .call callee _ arguments => callee.Aimed N shape ∧ Expr.AimedAll N shape arguments
  | .get object _ => object.Aimed N shape
  | .set object _ value => object.Aimed N shape ∧ value.Aimed N shape

def Expr.AimedAll (N : Notes) (shape : Shape) : List Expr → Prop
  | [] => True
  | e :: es => e.Aimed N shape ∧ Expr.AimedAll N shape es

end

mutual

/-- And no declaration is of the name. The functions declared are as told, but methods. -/
def Stmt.Aimed (N : Notes) (shape : Shape) : Stmt → Prop
  | .expression value => value.Aimed N shape
  | .print value => value.Aimed N shape
  | .var name none => name.lexeme ≠ "this"
  | .var name (some value) => name.lexeme ≠ "this" ∧ value.Aimed N shape
  | .block body => Stmt.AimedAll N (false :: shape) body
  | .branch condition thenBranch none => condition.Aimed N shape ∧ thenBranch.Aimed N shape
  | .branch condition thenBranch (some elseBranch) =>
    condition.Aimed N shape ∧ thenBranch.Aimed N shape ∧ elseBranch.Aimed N shape
  | .loop condition body => condition.Aimed N shape ∧ body.Aimed N shape
  | .break _ => True
  | .return _ none => True
  | .return _ (some value) => value.Aimed N shape
  | .function declaration => N.function declaration ∧ declaration.name.lexeme ≠ "this" ∧ declaration.Aimed N shape
  | .class name methods => name.lexeme ≠ "this" ∧ Function.AimedAll N (true :: shape) methods

def Stmt.AimedAll (N : Notes) (shape : Shape) : List Stmt → Prop
  | [] => True
  | s :: ss => s.Aimed N shape ∧ Stmt.AimedAll N shape ss

def Function.Aimed (N : Notes) (shape : Shape) : Function → Prop
  | .mk _ parameters body => (∀ p ∈ parameters, p.lexeme ≠ "this") ∧ Stmt.AimedAll N (false :: shape) body

def Function.AimedAll (N : Notes) (shape : Shape) : List Function → Prop
  | [] => True
  | f :: fs => f.Aimed N shape ∧ Function.AimedAll N shape fs

end

theorem Expr.Aimed.of_mem {shape : Shape} {es : List Expr} (h : Expr.AimedAll N shape es) {e : Expr} (he : e ∈ es) :
    e.Aimed N shape := by
  induction es with
  | nil => cases he
  | cons e' es ih =>
    rcases List.mem_cons.1 he with rfl | he
    · exact h.1
    · exact ih h.2 he

theorem Stmt.Aimed.of_mem {shape : Shape} {ss : List Stmt} (h : Stmt.AimedAll N shape ss) {s : Stmt} (hs : s ∈ ss) :
    s.Aimed N shape := by
  induction ss with
  | nil => cases hs
  | cons t ss ih =>
    rcases List.mem_cons.1 hs with rfl | hs
    · exact h.1
    · exact ih h.2 hs

theorem Function.Aimed.of_mem {shape : Shape} {fs : List Function} (h : Function.AimedAll N shape fs) {f : Function}
    (hf : f ∈ fs) : f.Aimed N shape := by
  induction fs with
  | nil => cases hf
  | cons g fs ih =>
    rcases List.mem_cons.1 hf with rfl | hf
    · exact h.1
    · exact ih h.2 hf

/-- The body of a function is aimed inside one scope more, which is not around methods. -/
theorem Function.Aimed.body {shape : Shape} {f : Function} (h : f.Aimed N shape) :
    (∀ p ∈ f.parameters, p.lexeme ≠ "this") ∧ Stmt.AimedAll N (false :: shape) f.body := by
  cases f
  exact h

mutual

/-- The functions that statements declare, but not methods. -/
def Stmt.functions : Stmt → List Function
  | .block body => Stmt.functionsAll body
  | .branch _ thenBranch none => thenBranch.functions
  | .branch _ thenBranch (some elseBranch) => thenBranch.functions ++ elseBranch.functions
  | .loop _ body => body.functions
  | .function f => f :: f.functions
  | .class _ methods => Function.functionsAll methods
  | _ => []

def Stmt.functionsAll : List Stmt → List Function
  | [] => []
  | s :: ss => s.functions ++ Stmt.functionsAll ss

def Function.functions : Function → List Function
  | .mk _ _ body => Stmt.functionsAll body

def Function.functionsAll : List Function → List Function
  | [] => []
  | f :: fs => f.functions ++ Function.functionsAll fs

end

mutual

theorem Expr.aimed_mono (hN : N.Within N') {shape : Shape} : (e : Expr) → e.Aimed N shape → e.Aimed N' shape
  | .literal _, _ => trivial
  | .group inner, h => Expr.aimed_mono hN inner h
  | .unary _ operand, h => Expr.aimed_mono hN operand h
  | .binary left _ right, h | .logical left _ right, h =>
    ⟨Expr.aimed_mono hN left h.1, Expr.aimed_mono hN right h.2⟩
  | .ternary condition thenBranch elseBranch, h =>
    ⟨Expr.aimed_mono hN condition h.1, Expr.aimed_mono hN thenBranch h.2.1, Expr.aimed_mono hN elseBranch h.2.2⟩
  | .variable _ _, _ => trivial
  | .assign _ _ value, h => ⟨h.1, Expr.aimed_mono hN value h.2⟩
  | .this _ _, h => ⟨h.1, h.2.imp fun _ hd => ⟨hd.1, hN.distance _ _ hd.2⟩⟩
  | .call callee _ arguments, h => ⟨Expr.aimed_mono hN callee h.1, Expr.aimedAll_mono hN arguments h.2⟩
  | .get object _, h => Expr.aimed_mono hN object h
  | .set object _ value, h => ⟨Expr.aimed_mono hN object h.1, Expr.aimed_mono hN value h.2⟩

theorem Expr.aimedAll_mono (hN : N.Within N') {shape : Shape} :
    (es : List Expr) → Expr.AimedAll N shape es → Expr.AimedAll N' shape es
  | [], _ => trivial
  | e :: es, h => ⟨Expr.aimed_mono hN e h.1, Expr.aimedAll_mono hN es h.2⟩

end

mutual

theorem Stmt.aimed_mono (hN : N.Within N') {shape : Shape} : (s : Stmt) → s.Aimed N shape → s.Aimed N' shape
  | .expression value, h | .print value, h | .return _ (some value), h => Expr.aimed_mono hN value h
  | .var _ none, h => h
  | .var _ (some value), h => ⟨h.1, Expr.aimed_mono hN value h.2⟩
  | .block body, h => Stmt.aimedAll_mono hN body h
  | .branch condition thenBranch none, h => ⟨Expr.aimed_mono hN condition h.1, Stmt.aimed_mono hN thenBranch h.2⟩
  | .branch condition thenBranch (some elseBranch), h =>
    ⟨Expr.aimed_mono hN condition h.1, Stmt.aimed_mono hN thenBranch h.2.1, Stmt.aimed_mono hN elseBranch h.2.2⟩
  | .loop condition body, h => ⟨Expr.aimed_mono hN condition h.1, Stmt.aimed_mono hN body h.2⟩
  | .break _, _ | .return _ none, _ => trivial
  | .function f, h => ⟨hN.function f h.1, h.2.1, Function.aimed_mono hN f h.2.2⟩
  | .class _ methods, h => ⟨h.1, Function.aimedAll_mono hN methods h.2⟩

theorem Stmt.aimedAll_mono (hN : N.Within N') {shape : Shape} :
    (ss : List Stmt) → Stmt.AimedAll N shape ss → Stmt.AimedAll N' shape ss
  | [], _ => trivial
  | s :: ss, h => ⟨Stmt.aimed_mono hN s h.1, Stmt.aimedAll_mono hN ss h.2⟩

theorem Function.aimed_mono (hN : N.Within N') {shape : Shape} : (f : Function) → f.Aimed N shape → f.Aimed N' shape
  | .mk _ _ body, h => ⟨h.1, Stmt.aimedAll_mono hN body h.2⟩

theorem Function.aimedAll_mono (hN : N.Within N') {shape : Shape} :
    (fs : List Function) → Function.AimedAll N shape fs → Function.AimedAll N' shape fs
  | [], _ => trivial
  | f :: fs, h => ⟨Function.aimed_mono hN f h.1, Function.aimedAll_mono hN fs h.2⟩

end

namespace Scoping

/-- The name `this` is in the scopes around methods only. -/
def Context.shape (c : Context) : Shape := c.frames.map (fun frame => (frame.lookup "this").isSome) ++ [false]

/-- Inside a class there is a scope around methods, and a function. -/
def Context.Marked (c : Context) : Prop := c.place.inClass = true → true ∈ c.shape ∧ c.place.body ≠ .topLevel

/-- The site is in order, and inside functions its distance is noted. -/
structure Site.Noted (N : Notes) (σ : Site) : Prop where
  worded : σ.Worded
  open_ : ¬Binding.Barred σ
  distance : σ.Inner → ∀ d, σ.distance? = some d → N.distance σ.id d

namespace Context

variable {c : Context}

/-- The nearest scope around methods is the nearest that declares `this`. -/
theorem shape_findIdx? (c : Context) : c.shape.findIdx? (·) = (declaration? "this" c.frames).map Prod.fst := by
  have h := Binding.findIdx?_view "this" c.frames
  rw [List.findIdx?_map] at h
  unfold shape
  rw [List.findIdx?_append, List.findIdx?_map, ← h]
  simp [Function.comp_def, Binding.view]

theorem shape_declare {name : Token} {form : Form} (h : name.lexeme ≠ "this") :
    (c.declare name form).shape = c.shape := by
  obtain ⟨frames, initializing, place⟩ := c
  cases frames with
  | nil => rfl
  | cons frame frames =>
    have hne : ("this" == name.lexeme) = false := by simpa using fun he => h he.symm
    simp [shape, declare, List.lookup_append, List.lookup_cons, hne]

theorem shape_inBody {place : Binding.Place} {ps : List Token} (h : ∀ p ∈ ps, p.lexeme ≠ "this") :
    (c.inBody place ps).shape = false :: c.shape := by
  have hno : (ps.map fun p => (p.lexeme, Form.parameter)).lookup "this" = none := by
    rw [List.lookup_eq_none_iff]
    intro d hd
    obtain ⟨p, hp, rfl⟩ := List.mem_map.1 hd
    simpa using fun he => h p hp he.symm
  simp [shape, inBody, inside, hno]

theorem shape_after {s : Stmt} (h : s.Named fun t => t.lexeme ≠ "this") : (c.after s).shape = c.shape := by
  cases s with
  | var name initializer =>
    cases initializer with
    | none => exact shape_declare h
    | some value => exact shape_declare h.1
  | function f =>
    obtain ⟨name, parameters, body⟩ := f
    exact shape_declare h.1
  | «class» name methods => exact shape_declare h.1
  | _ => rfl

theorem Marked.of_eq {c' : Context} (h : c.Marked) (hs : c'.shape = c.shape) (hp : c'.place = c.place) : c'.Marked := by
  unfold Marked
  rw [hs, hp]
  exact h

/-- A `this` that is in order has the distance of the nearest scope around methods. -/
theorem Marked.this (h : c.Marked) {id : OccurrenceId} {keyword : Token}
    (hσ : Site.Noted N ⟨⟨.this, id, keyword⟩, c⟩) :
    keyword.lexeme = "this" ∧ ∃ d, c.shape.findIdx? (·) = some d ∧ N.distance id d := by
  have hname : keyword.lexeme = "this" := hσ.worded.2 rfl
  have hin : c.place.inClass = true := by
    cases hc : c.place.inClass with
    | true => rfl
    | false => exact absurd (.inr ⟨rfl, hc⟩) hσ.open_
  have hsome : (c.shape.findIdx? (·)).isSome := by
    rw [List.findIdx?_isSome, List.any_eq_true]
    exact ⟨true, (h hin).1, rfl⟩
  obtain ⟨d, hd⟩ := Option.isSome_iff_exists.1 hsome
  refine ⟨hname, d, hd, hσ.distance (h hin).2 d ?_⟩
  have hown : ¬Site.InOwnInitializer ⟨⟨.this, id, keyword⟩, c⟩ := by
    rintro ⟨hi, -⟩
    exact hσ.worded.1.initializing (hname ▸ hi)
  rw [Site.distance?, if_neg hown, ← hd, shape_findIdx?, ← hname]
  rfl

end Context

end Scoping

section

variable {c : Context}

mutual

theorem Expr.aimed_of_sites (hc : c.Marked) : (e : Expr) → (∀ σ ∈ e.sites c, σ.Noted N) →
    e.Named (fun t => t.lexeme ≠ "this") → e.Aimed N c.shape
  | .literal _, _, _ => trivial
  | .group inner, hs, hn => Expr.aimed_of_sites hc inner hs hn
  | .unary _ operand, hs, hn => Expr.aimed_of_sites hc operand hs hn
  | .binary left _ right, hs, hn | .logical left _ right, hs, hn =>
    ⟨Expr.aimed_of_sites hc left (fun σ hσ => hs σ (List.mem_append_left _ hσ)) hn.1,
      Expr.aimed_of_sites hc right (fun σ hσ => hs σ (List.mem_append_right _ hσ)) hn.2⟩
  | .ternary condition thenBranch elseBranch, hs, hn =>
    ⟨Expr.aimed_of_sites hc condition
        (fun σ hσ => hs σ (List.mem_append_left _ (List.mem_append_left _ hσ))) hn.1.1,
      Expr.aimed_of_sites hc thenBranch
        (fun σ hσ => hs σ (List.mem_append_left _ (List.mem_append_right _ hσ))) hn.1.2,
      Expr.aimed_of_sites hc elseBranch (fun σ hσ => hs σ (List.mem_append_right _ hσ)) hn.2⟩
  | .variable _ _, _, _ => trivial
  | .assign _ _ value, hs, hn =>
    ⟨hn.1, Expr.aimed_of_sites hc value (fun σ hσ => hs σ (List.mem_append_left _ hσ)) hn.2⟩
  | .this _ _, hs, _ => hc.this (hs _ List.mem_cons_self)
  | .call callee _ arguments, hs, hn =>
    ⟨Expr.aimed_of_sites hc callee (fun σ hσ => hs σ (List.mem_append_left _ hσ)) hn.1,
      Expr.aimedAll_of_sites hc arguments (fun σ hσ => hs σ (List.mem_append_right _ hσ)) hn.2⟩
  | .get object _, hs, hn => Expr.aimed_of_sites hc object hs hn
  | .set object _ value, hs, hn =>
    ⟨Expr.aimed_of_sites hc object (fun σ hσ => hs σ (List.mem_append_right _ hσ)) hn.1,
      Expr.aimed_of_sites hc value (fun σ hσ => hs σ (List.mem_append_left _ hσ)) hn.2⟩

theorem Expr.aimedAll_of_sites (hc : c.Marked) : (es : List Expr) → (∀ σ ∈ Expr.sitesAll c es, σ.Noted N) →
    Expr.NamedAll (fun t => t.lexeme ≠ "this") es → Expr.AimedAll N c.shape es
  | [], _, _ => trivial
  | e :: es, hs, hn =>
    ⟨Expr.aimed_of_sites hc e (fun σ hσ => hs σ (List.mem_append_left _ hσ)) hn.1,
      Expr.aimedAll_of_sites hc es (fun σ hσ => hs σ (List.mem_append_right _ hσ)) hn.2⟩

end

mutual

/-- Sites that are noted make the statement aimed, by induction on it. Inside a class there is a scope around methods,
so a `this` that is in order finds one. -/
theorem Stmt.aimed_of_sites (c : Context) (hc : c.Marked) : (s : Stmt) → (∀ σ ∈ s.sites c, σ.Noted N) →
    s.Named (fun t => t.lexeme ≠ "this") → (∀ f ∈ s.functions, N.function f) → s.Aimed N c.shape
  | .expression value, hs, hn, _ | .print value, hs, hn, _ | .return _ (some value), hs, hn, _ =>
    Expr.aimed_of_sites hc value hs hn
  | .var _ none, _, hn, _ => hn
  | .var name (some value), hs, hn, _ =>
    have hc : (c.inInitializer name).Marked := hc
    ⟨hn.1, Expr.aimed_of_sites hc value hs hn.2⟩
  | .block body, hs, hn, hf =>
    Stmt.aimedAll_of_sites (c.inside []) (fun h => (hc h).imp_left (List.mem_cons_of_mem _)) body hs hn hf
  | .branch condition thenBranch none, hs, hn, hf =>
    ⟨Expr.aimed_of_sites hc condition (fun σ hσ => hs σ (List.mem_append_left _ hσ)) hn.1,
      Stmt.aimed_of_sites c hc thenBranch (fun σ hσ => hs σ (List.mem_append_right _ hσ)) hn.2 hf⟩
  | .branch condition thenBranch (some elseBranch), hs, hn, hf =>
    ⟨Expr.aimed_of_sites hc condition
        (fun σ hσ => hs σ (List.mem_append_left _ (List.mem_append_left _ hσ))) hn.1.1,
      Stmt.aimed_of_sites c hc thenBranch (fun σ hσ => hs σ (List.mem_append_left _ (List.mem_append_right _ hσ)))
        hn.1.2 (fun f h => hf f (List.mem_append_left _ h)),
      Stmt.aimed_of_sites c hc elseBranch (fun σ hσ => hs σ (List.mem_append_right _ hσ)) hn.2
        (fun f h => hf f (List.mem_append_right _ h))⟩
  | .loop condition body, hs, hn, hf =>
    ⟨Expr.aimed_of_sites hc condition (fun σ hσ => hs σ (List.mem_append_left _ hσ)) hn.1,
      Stmt.aimed_of_sites c hc body (fun σ hσ => hs σ (List.mem_append_right _ hσ)) hn.2 hf⟩
  | .break _, _, _, _ | .return _ none, _, _, _ => trivial
  | .function f, hs, hn, hf => by
    have hname : f.name.lexeme ≠ "this" := by
      obtain ⟨name, parameters, body⟩ := f
      exact hn.1
    have hshape : (c.declare f.name .function).shape = c.shape := Context.shape_declare hname
    have hin := Function.aimed_of_sites (c.declare f.name .function) ⟨.function, c.place.inClass⟩
      (fun h => hshape ▸ (hc h).1) (by simp) f hs hn fun g hg => hf g (List.mem_cons_of_mem _ hg)
    rw [hshape] at hin
    exact ⟨hf f List.mem_cons_self, hname, hin⟩
  | .class name methods, hs, hn, hf => by
    have hin := Function.aimedAll_of_sites (c.declare name .class).inClass List.mem_cons_self methods hs hn.2 hf
    have hshape : (c.declare name .class).inClass.shape = true :: c.shape :=
      congrArg (true :: ·) (Context.shape_declare hn.1)
    rw [hshape] at hin
    exact ⟨hn.1, hin⟩

theorem Stmt.aimedAll_of_sites (c : Context) (hc : c.Marked) : (ss : List Stmt) →
    (∀ σ ∈ Stmt.sitesAll c ss, σ.Noted N) → Stmt.NamedAll (fun t => t.lexeme ≠ "this") ss →
    (∀ f ∈ Stmt.functionsAll ss, N.function f) → Stmt.AimedAll N c.shape ss
  | [], _, _, _ => trivial
  | s :: ss, hs, hn, hf => by
    have hshape : (c.after s).shape = c.shape := Context.shape_after hn.1
    have hss := Stmt.aimedAll_of_sites (c.after s) (hc.of_eq hshape (Context.after_place c s)) ss
      (fun σ hσ => hs σ (List.mem_append_right _ hσ)) hn.2 fun f h => hf f (List.mem_append_right _ h)
    rw [hshape] at hss
    exact ⟨Stmt.aimed_of_sites c hc s (fun σ hσ => hs σ (List.mem_append_left _ hσ)) hn.1
      fun f h => hf f (List.mem_append_left _ h), hss⟩

theorem Function.aimed_of_sites (c : Context) (place : Binding.Place) (hc : place.inClass = true → true ∈ c.shape)
    (hp : place.body ≠ .topLevel) : (f : Function) → (∀ σ ∈ f.sites place c, σ.Noted N) →
    f.Named (fun t => t.lexeme ≠ "this") → (∀ g ∈ f.functions, N.function g) → f.Aimed N c.shape
  | .mk _ parameters body, hs, hn, hf => by
    have hshape : (c.inBody place parameters).shape = false :: c.shape := Context.shape_inBody hn.2.1
    have hbody := Stmt.aimedAll_of_sites (c.inBody place parameters)
      (fun h => ⟨hshape ▸ List.mem_cons_of_mem _ (hc h), hp⟩) body hs hn.2.2 hf
    rw [hshape] at hbody
    exact ⟨hn.2.1, hbody⟩

theorem Function.aimedAll_of_sites (c : Context) (hc : true ∈ c.shape) : (fs : List Function) →
    (∀ σ ∈ Function.sitesAll c fs, σ.Noted N) → Function.NamedAll (fun t => t.lexeme ≠ "this") fs →
    (∀ g ∈ Function.functionsAll fs, N.function g) → Function.AimedAll N c.shape fs
  | [], _, _, _ => trivial
  | f :: fs, hs, hn, hf =>
    ⟨Function.aimed_of_sites c (Binding.methodPlace f) (fun _ => hc) (Binding.methodPlace_body f) f
      (fun σ hσ => hs σ (List.mem_append_left _ hσ)) hn.1 (fun g hg => hf g (List.mem_append_left _ hg)),
      Function.aimedAll_of_sites c hc fs (fun σ hσ => hs σ (List.mem_append_right _ hσ)) hn.2
        fun g hg => hf g (List.mem_append_right _ hg)⟩

end

end

end LoxLang
