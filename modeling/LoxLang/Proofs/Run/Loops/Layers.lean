import LoxLang.Proofs.Run.Alike.Basic
import LoxLang.Proofs.Run.Loops.Direct
import LoxLang.Proofs.Run.Programs

namespace LoxLang
open Scoping

/-- A scope around a place: one that both runs have, or only one of them. -/
inductive Layer where
  | both
  | direct
  | desugared

/-- The local scopes around a place, the innermost first. -/
abbrev Layers := List Layer

namespace Layers

/-- So many scopes outward in the direct run, and so many in the other, is the same scope. -/
inductive Meet : Layers → Nat → Nat → Prop
  | here (k : Layers) : Meet (.both :: k) 0 0
  | both {k : Layers} {d d' : Nat} (h : Meet k d d') : Meet (.both :: k) (d + 1) (d' + 1)
  | direct {k : Layers} {d d' : Nat} (h : Meet k d d') : Meet (.direct :: k) (d + 1) d'
  | desugared {k : Layers} {d d' : Nat} (h : Meet k d d') : Meet (.desugared :: k) d (d' + 1)

/-- Declarations may stand here: the innermost scope is one that both runs have. -/
def Open (k : Layers) : Prop := ∀ layer ∈ k.head?, layer = .both

theorem open_both (k : Layers) : Open (.both :: k) := by simp [Open]

end Layers

/-- The scopes around the turns of a `for`. -/
def ForLoop.turnLayers (f : ForLoop) (k : Layers) : Layers :=
  match f.initializer with
  | some _ => .both :: k
  | none => .direct :: k

/-- The scopes around its body and its increment. -/
def ForLoop.bodyLayers (f : ForLoop) (k : Layers) : Layers :=
  match f.increment with
  | some _ => .desugared :: k
  | none => k

/-- The direct run of programs under a reading, and their run as the trees have it. -/
structure TwoRuns where
  reading : Reading
  direct : Setting
  desugared : Setting
  clock : desugared.clock = direct.clock

/-- All occurrences in the expression have distances that lead to the same scope, or none. -/
def Expr.Aligned (T : TwoRuns) (k : Layers) (e : Expr) : Prop :=
  ∀ o ∈ e.occurrences, Option.Rel k.Meet T.direct.distances[o.id]? T.desugared.distances[o.id]?

/-- So have all in the statement, and it declares names in scopes only that both runs have. -/
inductive Stmt.Aligned (T : TwoRuns) : Layers → Stmt → Prop
  | expression {k : Layers} {value : Expr} (h : value.Aligned T k) : Stmt.Aligned T k (.expression value)
  | print {k : Layers} {value : Expr} (h : value.Aligned T k) : Stmt.Aligned T k (.print value)
  | var {k : Layers} (name : Token) {initializer : Option Expr} (hk : k.Open)
    (h : ∀ e ∈ initializer, e.Aligned T k) : Stmt.Aligned T k (.var name initializer)
  | block {k : Layers} {body : List Stmt} (hr : T.reading.loop? (.block body) = none)
    (h : ∀ s ∈ body, Stmt.Aligned T (.both :: k) s) : Stmt.Aligned T k (.block body)
  | branch {k : Layers} {condition : Expr} {thenBranch : Stmt} {elseBranch : Option Stmt}
    (hc : condition.Aligned T k) (ht : Stmt.Aligned T k thenBranch) (he : ∀ s ∈ elseBranch, Stmt.Aligned T k s) :
    Stmt.Aligned T k (.branch condition thenBranch elseBranch)
  | loop {k : Layers} {condition : Expr} {body : Stmt} (hr : T.reading.loop? (.loop condition body) = none)
    (hc : condition.Aligned T k) (hb : Stmt.Aligned T k body) : Stmt.Aligned T k (.loop condition body)
  | break (k : Layers) (keyword : Token) : Stmt.Aligned T k (.break keyword)
  | return {k : Layers} (keyword : Token) {value : Option Expr} (h : ∀ e ∈ value, e.Aligned T k) :
    Stmt.Aligned T k (.return keyword value)
  | function {k : Layers} {f : Function} (hk : k.Open) (h : ∀ s ∈ f.body, Stmt.Aligned T (.both :: k) s) :
    Stmt.Aligned T k (.function f)
  | class {k : Layers} (name : Token) {methods : List Function} (hk : k.Open)
    (h : ∀ f ∈ methods, ∀ s ∈ f.body, Stmt.Aligned T (.both :: .both :: k) s) : Stmt.Aligned T k (.class name methods)
  | for {k : Layers} {s : Stmt} {f : ForLoop} (hr : T.reading.loop? s = some f)
    (hi : ∀ first ∈ f.initializer, Stmt.Aligned T (f.turnLayers k) first)
    (hc : ∀ e ∈ f.condition, e.Aligned T (f.turnLayers k))
    (hn : ∀ e ∈ f.increment, e.Aligned T (f.bodyLayers (f.turnLayers k)))
    (hb : Stmt.Aligned T (f.bodyLayers (f.turnLayers k)) f.body) : Stmt.Aligned T k s

/-- The statements in a function are aligned, given the scopes around the function. -/
def Function.Aligned (T : TwoRuns) (k : Layers) (f : Function) : Prop := ∀ s ∈ f.body, s.Aligned T (.both :: k)

namespace Scoping

/-- The frames of a place in the two runs. What only one of them has declares no names. -/
inductive Layered : Layers → List Frame → List Frame → Prop
  | nil : Layered [] [] []
  | both {k : Layers} {fs fs' : List Frame} (frame : Frame) (h : Layered k fs fs') :
    Layered (.both :: k) (frame :: fs) (frame :: fs')
  | direct {k : Layers} {fs fs' : List Frame} (h : Layered k fs fs') : Layered (.direct :: k) ([] :: fs) fs'
  | desugared {k : Layers} {fs fs' : List Frame} (h : Layered k fs fs') : Layered (.desugared :: k) fs ([] :: fs')

/-- A scope that declares no names only adds to the way outward. -/
theorem declaration?_nil_cons (name : String) (fs : List Frame) :
    declaration? name ([] :: fs) = (declaration? name fs).map fun r => (r.1 + 1, r.2) := rfl

/-- A name is declared in the same scope in both. -/
theorem Layered.declaration? {k : Layers} {fs fs' : List Frame} (h : Layered k fs fs') (name : String) :
    Option.Rel (fun r r' => k.Meet r.1 r'.1) (Scoping.declaration? name fs) (Scoping.declaration? name fs') := by
  induction h with
  | nil => exact .none
  | both frame h ih =>
    rw [Scoping.declaration?, Scoping.declaration?]
    split
    · exact .some (.here _)
    · exact ih.map fun _ _ => .both
  | @direct k fs fs' h ih =>
    rw [declaration?_nil_cons, ← Option.map_id_apply (x := Scoping.declaration? name fs')]
    exact ih.map fun _ _ => .direct
  | @desugared k fs fs' h ih =>
    rw [declaration?_nil_cons, ← Option.map_id_apply (x := Scoping.declaration? name fs)]
    exact ih.map fun _ _ => .desugared

/-- The contexts of a place in the two runs. -/
structure Context.Layered (k : Layers) (c c' : Context) : Prop where
  frames : Scoping.Layered k c.frames c'.frames
  initializing : c'.initializing = c.initializing

namespace Context.Layered

variable {k : Layers} {c c' : Context}

theorem inside (h : c.Layered k c') (frame : Frame) : (c.inside frame).Layered (.both :: k) (c'.inside frame) :=
  ⟨.both frame h.frames, h.initializing⟩

theorem inBody (h : c.Layered k c') (place place' : Binding.Place) (parameters : List Token) :
    (c.inBody place parameters).Layered (.both :: k) (c'.inBody place' parameters) :=
  ⟨.both _ h.frames, h.initializing⟩

theorem inInitializer (h : c.Layered k c') (name : Token) :
    (c.inInitializer name).Layered k (c'.inInitializer name) :=
  ⟨h.frames, rfl⟩

/-- A declaration goes to the same scope in both, as long as the innermost one is not made by one run alone. -/
theorem declare (h : c.Layered k c') (hk : k.Open) (name : Token) (form : Form) :
    (c.declare name form).Layered k (c'.declare name form) := by
  obtain ⟨fs, initializing, place⟩ := c
  obtain ⟨fs', initializing', place'⟩ := c'
  obtain ⟨hfs, hi⟩ := h
  cases hfs with
  | nil => exact ⟨.nil, hi⟩
  | both frame hfs => exact ⟨.both _ hfs, hi⟩
  | direct | desugared => simp [Layers.Open] at hk

theorem after (h : c.Layered k c') {s : Stmt} (hk : s.isDeclaration = true → k.Open) :
    (c.after s).Layered k (c'.after s) := by
  cases s with
  | var name initializer => cases initializer <;> exact h.declare (hk rfl) name _
  | function f => exact h.declare (hk rfl) f.name _
  | «class» name methods => exact h.declare (hk rfl) name _
  | _ => exact h

end Context.Layered

end Scoping

theorem Setting.agrees_append {setting : Setting} {σs τs : List Site} :
    setting.Agrees (· ∈ σs ++ τs) ↔ setting.Agrees (· ∈ σs) ∧ setting.Agrees (· ∈ τs) := by
  simp [Setting.Agrees, or_imp, forall_and]

variable {T : TwoRuns} {k : Layers} {c c' : Context}

/-- The distances of one occurrence, in the contexts that the two runs have for its place. -/
theorem Scoping.Context.Layered.distance? (h : c.Layered k c') (hi : c.initializing ≠ none → k.Open) (o : Occurrence) :
    Option.Rel k.Meet (Site.distance? ⟨o, c⟩) (Site.distance? ⟨o, c'⟩) := by
  obtain ⟨fs, initializing, place⟩ := c
  obtain ⟨fs', initializing', place'⟩ := c'
  obtain ⟨hfs, rfl⟩ := h
  have hdeclared : Option.Rel k.Meet ((Scoping.declaration? o.token.lexeme fs).map Prod.fst)
      ((Scoping.declaration? o.token.lexeme fs').map Prod.fst) := (hfs.declaration? _).map fun _ _ => id
  simp only [Site.distance?, Site.InOwnInitializer, Site.declaration?, Site.name]
  by_cases hown : initializing' = some o.token.lexeme
  · -- a variable in its own initializer is in the innermost scope
    have hk := hi (by simp [hown])
    cases hfs with
    | nil => simpa [hown] using hdeclared
    | both frame hfs =>
      simp only [hown, ne_eq, reduceCtorEq, not_false_eq_true, and_self, if_true]
      exact .some (.here _)
    | direct | desugared => simp [Layers.Open] at hk
  · simpa [hown] using hdeclared

/-- All occurrences of an expression stand in the same context. -/
theorem Expr.aligned (e : Expr) (hc : c.Layered k c') (hi : c.initializing ≠ none → k.Open)
    (hd : T.direct.Agrees (· ∈ e.sites c)) (hd' : T.desugared.Agrees (· ∈ e.sites c')) : e.Aligned T k := by
  intro o ho
  have hsite : ∀ c : Context, (⟨o, c⟩ : Site) ∈ e.sites c := by
    intro c
    obtain ⟨σ, hσ, rfl⟩ := List.mem_map.1 ((e.sitesOf c).symm.subset ho)
    have hcontext := e.sites_context c σ hσ
    subst hcontext
    exact hσ
  have h : T.direct.distances[o.id]? = _ := hd ⟨o, c⟩ (hsite c)
  have h' : T.desugared.distances[o.id]? = _ := hd' ⟨o, c'⟩ (hsite c')
  rw [h, h']
  exact hc.distance? hi o

theorem Expr.occurrences_subset {e : Expr} {es : List Expr} (he : e ∈ es) :
    e.occurrences ⊆ Expr.occurrencesAll es := by
  induction es with
  | nil => cases he
  | cons e' es ih =>
    rw [Expr.occurrencesAll]
    rcases List.mem_cons.1 he with rfl | he
    · exact List.subset_append_left _ _
    · exact List.subset_append_of_subset_right _ (ih he)

theorem Expr.sites_subset {e : Expr} {es : List Expr} (he : e ∈ es) (c : Context) :
    e.sites c ⊆ Expr.sitesAll c es := by
  induction es with
  | nil => cases he
  | cons e' es ih =>
    rw [Expr.sitesAll]
    rcases List.mem_cons.1 he with rfl | he
    · exact List.subset_append_left _ _
    · exact List.subset_append_of_subset_right _ (ih he)

theorem Expr.aligned_of_mem {e : Expr} {es : List Expr} (he : e ∈ es) (hc : c.Layered k c')
    (hi : c.initializing = none) (hd : T.direct.Agrees (· ∈ Expr.sitesAll c es))
    (hd' : T.desugared.Agrees (· ∈ Expr.sitesAll c' es)) : e.Aligned T k :=
  e.aligned hc (by simp [hi]) (fun σ hσ => hd σ (Expr.sites_subset he c hσ)) fun σ hσ =>
    hd' σ (Expr.sites_subset he c' hσ)

namespace ForLoop

variable (f : ForLoop)

/-- The context of its turns. -/
def turn (c : Context) : Context :=
  match f.initializer with
  | some first => (c.inside []).after first
  | none => c

/-- The context of its body and its increment, inside that of a turn. -/
def inner (c : Context) : Context :=
  match f.increment with
  | some _ => c.inside []
  | none => c

/-- The occurrences of the loop stand in the order of its parts: first clause, condition, body, increment. -/
theorem sites_desugared (hf : f.Proper) (c : Context) :
    f.desugared.sites c =
      Stmt.sitesAll (c.inside []) f.initializer.toList ++ (Expr.sitesAll (f.turn c) f.condition.toList ++
        (f.body.sites (f.inner (f.turn c)) ++ Expr.sitesAll (f.inner (f.turn c)) f.increment.toList)) := by
  obtain ⟨initializer, condition, increment, body⟩ := f
  have hbody : ∀ c : Context, c.after body = c := fun c => Context.after_of_not_declaration hf.body
  cases initializer <;> cases condition <;> cases increment <;>
    simp [desugared, Stmt.forLoop, turn, inner, Stmt.sites, Stmt.sitesAll, Expr.sites, Expr.sitesAll, hbody]

/-- The contexts of a turn in the two runs. -/
theorem turn_layered (h : c.Layered k c') :
    ((c.inside []).afterAll f.initializer.toList).Layered (f.turnLayers k) (f.turn c') := by
  unfold turnLayers turn
  cases f.initializer with
  | some first => exact (h.inside []).after fun _ => Layers.open_both k
  | none => exact ⟨.direct h.frames, h.initializing⟩

/-- The contexts of a body. -/
theorem inner_layered (h : c.Layered k c') : c.Layered (f.bodyLayers k) (f.inner c') := by
  unfold bodyLayers inner
  cases f.increment with
  | some _ => exact ⟨.desugared h.frames, h.initializing⟩
  | none => exact h

end ForLoop

namespace Reading

variable {r : Reading} {s : Stmt} {f : ForLoop}

/-- In the direct run a `for` has one scope for its first clause, and none of the blocks around its body. -/
theorem sites_of_loop (hr : r.loop? s = some f) (c : Context) :
    r.sites c s =
      Stmt.sitesAll (c.inside []) f.initializer.toList ++
        (Expr.sitesAll ((c.inside []).afterAll f.initializer.toList) f.condition.toList ++
          (r.sites ((c.inside []).afterAll f.initializer.toList) f.body ++
            Expr.sitesAll ((c.inside []).afterAll f.initializer.toList) f.increment.toList)) := by
  rw [Reading.sites]
  split
  · next hf =>
    cases hr.symm.trans hf
    simp
  · next hf =>
    rw [hr] at hf
    cases hf

theorem sites_of_none (hr : r.loop? s = none) (c : Context) :
    r.sites c s = match s with
      | .block body => r.sitesAll (c.inside []) body
      | .branch condition thenBranch none => condition.sites c ++ r.sites c thenBranch
      | .branch condition thenBranch (some elseBranch) =>
        condition.sites c ++ r.sites c thenBranch ++ r.sites c elseBranch
      | .loop condition body => condition.sites c ++ r.sites c body
      | .function f => r.functionSites ⟨.function, c.place.inClass⟩ (c.declare f.name .function) f
      | .class name methods => r.methodSites (c.declare name .class).inClass methods
      | s => s.sites c := by
  rw [Reading.sites]
  split
  · next hf =>
    rw [hr] at hf
    cases hf
  · rfl

/-- Only blocks and loops stand for a `for`. -/
theorem loop?_eq_none (hb : ∀ body, s ≠ .block body) (hl : ∀ condition body, s ≠ .loop condition body) :
    r.loop? s = none := by
  cases hr : r.loop? s with
  | none => rfl
  | some f =>
    have hs := r.desugared hr
    unfold ForLoop.desugared Stmt.forLoop at hs
    dsimp only at hs
    split at hs
    · exact absurd hs.symm (hb _)
    · exact absurd hs.symm (hl _ _)

end Reading

theorem Stmt.Aligned.of_loop {s : Stmt} {f : ForLoop} (h : s.Aligned T k) (hr : T.reading.loop? s = some f) :
    (∀ first ∈ f.initializer, first.Aligned T (f.turnLayers k)) ∧
      (∀ e ∈ f.condition, e.Aligned T (f.turnLayers k)) ∧
      (∀ e ∈ f.increment, e.Aligned T (f.bodyLayers (f.turnLayers k))) ∧
      f.body.Aligned T (f.bodyLayers (f.turnLayers k)) := by
  have hsome : T.reading.loop? s ≠ none := by simp [hr]
  cases h with
  | «for» hr' hi hc hn hb =>
    cases hr.symm.trans hr'
    exact ⟨hi, hc, hn, hb⟩
  | block hr' | loop hr' => exact absurd hr' hsome
  | _ => exact (hsome (T.reading.loop?_eq_none nofun nofun)).elim

theorem Stmt.var_aligned {name : Token} {initializer : Option Expr} (hc : c.Layered k c') (hk : k.Open)
    (hd : T.direct.Agrees (· ∈ (Stmt.var name initializer).sites c))
    (hd' : T.desugared.Agrees (· ∈ (Stmt.var name initializer).sites c')) :
    (Stmt.var name initializer).Aligned T k := by
  refine .var name hk ?_
  rintro e rfl
  exact e.aligned (hc.inInitializer name) (fun _ => hk) hd hd'

theorem ForLoop.body_formed {f : ForLoop} (h : f.desugared.Formed) : f.body.Formed := by
  obtain ⟨initializer, condition, increment, body⟩ := f
  cases initializer <;> cases increment <;>
    simp_all [desugared, Stmt.forLoop, Stmt.Formed, Stmt.FormedAll]

theorem ForLoop.initializer_aligned {f : ForLoop} (hf : f.Proper) (hc : c.Layered k c') (hi : c.initializing = none)
    (hd : T.direct.Agrees (· ∈ Stmt.sitesAll (c.inside []) f.initializer.toList))
    (hd' : T.desugared.Agrees (· ∈ Stmt.sitesAll (c'.inside []) f.initializer.toList)) :
    ∀ first ∈ f.initializer, first.Aligned T (f.turnLayers k) := by
  intro first hfirst
  rw [Option.mem_def] at hfirst
  simp only [hfirst, Option.toList_some, Stmt.sitesAll, List.append_nil] at hd hd'
  unfold turnLayers
  rw [hfirst]
  have hinside := hc.inside []
  rcases hf.initializer first hfirst with ⟨name, value, rfl⟩ | ⟨value, rfl⟩
  · exact Stmt.var_aligned hinside (Layers.open_both k) hd hd'
  · exact .expression (value.aligned hinside (by simp [Context.inside, hi]) hd hd')

mutual

/-- By induction on the tree: the direct run takes some of its blocks for loops, and has their occurrences at the places
of its own scopes. -/
theorem Stmt.aligned {c c' : Context} {k : Layers} (hc : c.Layered k c') (hi : c.initializing = none) (s : Stmt)
    (hf : s.Formed) (hk : s.isDeclaration = true → k.Open) (hd : T.direct.Agrees (· ∈ T.reading.sites c s))
    (hd' : T.desugared.Agrees (· ∈ s.sites c')) : s.Aligned T k := by
  cases hr : T.reading.loop? s with
  | some f =>
    have hs := T.reading.desugared hr
    have hproper := T.reading.proper hr
    rw [← hs, f.sites_desugared hproper] at hd'
    rw [Reading.sites_of_loop hr] at hd
    simp only [Setting.agrees_append] at hd hd'
    obtain ⟨hstart, hcondition, hbody, hincrement⟩ := hd
    obtain ⟨hstart', hcondition', hbody', hincrement'⟩ := hd'
    have hturn := f.turn_layered hc
    have hinner := f.inner_layered hturn
    have hnone : ((c.inside []).afterAll f.initializer.toList).initializing = none := by
      rw [Context.afterAll_initializing]
      exact hi
    refine .for hr (ForLoop.initializer_aligned hproper hc hi hstart hstart') ?_ ?_ ?_
    · exact fun e he => Expr.aligned_of_mem (Option.mem_toList.2 he) hturn hnone hcondition hcondition'
    · exact fun e he => Expr.aligned_of_mem (Option.mem_toList.2 he) hinner hnone hincrement hincrement'
    · have hlt : sizeOf f.body < sizeOf s := hs ▸ f.sizeOf_body_lt
      refine Stmt.aligned hinner hnone f.body (ForLoop.body_formed (hs ▸ hf)) ?_ hbody hbody'
      simp [hproper.body]
  | none =>
    rw [Reading.sites_of_none hr] at hd
    match hs : s with
    | .expression value => exact .expression (value.aligned hc (by simp [hi]) hd hd')
    | .print value => exact .print (value.aligned hc (by simp [hi]) hd hd')
    | .var name initializer => exact Stmt.var_aligned hc (hk rfl) hd hd'
    | .block body =>
      exact .block hr (Stmt.alignedAll (hc.inside []) hi (Layers.open_both k) body hf hd hd')
    | .branch condition thenBranch none =>
      obtain ⟨hcondition, hyes⟩ := Setting.agrees_append.1 hd
      obtain ⟨hcondition', hyes'⟩ := Setting.agrees_append.1 hd'
      refine .branch (condition.aligned hc (by simp [hi]) hcondition hcondition') ?_ (by simp)
      exact Stmt.aligned hc hi thenBranch hf.2 (by simp [hf.1]) hyes hyes'
    | .branch condition thenBranch (some elseBranch) =>
      simp only [Stmt.sites, Setting.agrees_append] at hd hd'
      obtain ⟨⟨hcondition, hyes⟩, hno⟩ := hd
      obtain ⟨⟨hcondition', hyes'⟩, hno'⟩ := hd'
      refine .branch (condition.aligned hc (by simp [hi]) hcondition hcondition') ?_ ?_
      · exact Stmt.aligned hc hi thenBranch hf.1.2 (by simp [hf.1.1]) hyes hyes'
      · rintro _ ⟨⟩
        exact Stmt.aligned hc hi elseBranch hf.2.2 (by simp [hf.2.1]) hno hno'
    | .loop condition body =>
      obtain ⟨hcondition, hbody⟩ := Setting.agrees_append.1 hd
      obtain ⟨hcondition', hbody'⟩ := Setting.agrees_append.1 hd'
      refine .loop hr (condition.aligned hc (by simp [hi]) hcondition hcondition') ?_
      exact Stmt.aligned hc hi body hf.2 (by simp [hf.1]) hbody hbody'
    | .break keyword => exact .break k keyword
    | .return keyword none => exact .return keyword (by simp)
    | .return keyword (some value) =>
      refine .return keyword ?_
      rintro _ ⟨⟩
      exact value.aligned hc (by simp [hi]) hd hd'
    | .function f =>
      have hopen := hk rfl
      refine .function hopen (Function.aligned (hc.declare hopen f.name .function) ?_ _ f hf hd hd')
      rw [Context.declare_initializing]
      exact hi
    | .class name methods =>
      have hopen := hk rfl
      refine .class name hopen (Function.alignedAll ((hc.declare hopen name .class).inside _) ?_ methods hf hd hd')
      exact (Context.declare_initializing _ _ _).trans hi
termination_by sizeOf s

theorem Stmt.alignedAll {c c' : Context} {k : Layers} (hc : c.Layered k c') (hi : c.initializing = none) (hk : k.Open)
    (ss : List Stmt) (hf : Stmt.FormedAll ss) (hd : T.direct.Agrees (· ∈ T.reading.sitesAll c ss))
    (hd' : T.desugared.Agrees (· ∈ Stmt.sitesAll c' ss)) : ∀ s ∈ ss, s.Aligned T k := by
  match ss with
  | [] => simp
  | s :: ss =>
    rw [Reading.sitesAll, Setting.agrees_append] at hd
    rw [Stmt.sitesAll, Setting.agrees_append] at hd'
    rw [List.forall_mem_cons]
    refine ⟨Stmt.aligned hc hi s hf.1 (fun _ => hk) hd.1 hd'.1, ?_⟩
    exact Stmt.alignedAll (hc.after fun _ => hk) ((Context.after_initializing c s).trans hi) hk ss hf.2 hd.2 hd'.2
termination_by sizeOf ss

theorem Function.aligned {c c' : Context} {k : Layers} (hc : c.Layered k c') (hi : c.initializing = none)
    (place : Binding.Place) (f : Function) (hf : f.Formed)
    (hd : T.direct.Agrees (· ∈ T.reading.functionSites place c f))
    {place' : Binding.Place} (hd' : T.desugared.Agrees (· ∈ f.sites place' c')) : f.Aligned T k := by
  match f with
  | .mk name parameters body =>
    rw [Reading.functionSites] at hd
    rw [Function.sites] at hd'
    exact Stmt.alignedAll (hc.inBody place place' parameters) hi (Layers.open_both k) body hf hd hd'
termination_by sizeOf f

theorem Function.alignedAll {c c' : Context} {k : Layers} (hc : c.Layered k c') (hi : c.initializing = none)
    (fs : List Function) (hf : Function.FormedAll fs) (hd : T.direct.Agrees (· ∈ T.reading.methodSites c fs))
    (hd' : T.desugared.Agrees (· ∈ Function.sitesAll c' fs)) : ∀ f ∈ fs, f.Aligned T k := by
  match fs with
  | [] => simp
  | f :: fs =>
    rw [Reading.methodSites, Setting.agrees_append] at hd
    rw [Function.sitesAll, Setting.agrees_append] at hd'
    rw [List.forall_mem_cons]
    exact ⟨Function.aligned hc hi _ f hf.1 hd.1 hd'.1, Function.alignedAll hc hi fs hf.2 hd.2 hd'.2⟩
termination_by sizeOf fs

end

theorem ForLoop.occurrences_desugared (f : ForLoop) :
    f.desugared.occurrences =
      Stmt.occurrencesAll f.initializer.toList ++ (Expr.occurrencesAll f.condition.toList ++
        (f.body.occurrences ++ Expr.occurrencesAll f.increment.toList)) := by
  obtain ⟨initializer, condition, increment, body⟩ := f
  cases initializer <;> cases condition <;> cases increment <;>
    simp [desugared, Stmt.forLoop, Stmt.occurrences, Stmt.occurrencesAll, Expr.occurrences, Expr.occurrencesAll]

namespace Reading

variable (r : Reading)

mutual

/-- The sites of the direct run are the occurrences of the tree, in its order. -/
theorem sitesOf (c : Context) (s : Stmt) : SitesOf (r.sites c s) s.occurrences := by
  cases hr : r.loop? s with
  | some f =>
    have hs := r.desugared hr
    rw [sites_of_loop hr, ← hs, f.occurrences_desugared]
    have hlt : sizeOf f.body < sizeOf s := hs ▸ f.sizeOf_body_lt
    exact (Stmt.sitesOfAll _ _).append ((Expr.sitesOfAll _ _).append ((sitesOf _ f.body).append (Expr.sitesOfAll _ _)))
  | none =>
    rw [sites_of_none hr]
    match hs : s with
    | .expression value | .print value | .var _ (some value) | .return _ (some value) => exact value.sitesOf _
    | .var _ none | .return _ none | .break _ => exact .nil
    | .block body => exact sitesOfAll _ body
    | .branch condition thenBranch none => exact (condition.sitesOf c).append (sitesOf c thenBranch)
    | .branch condition thenBranch (some elseBranch) =>
      exact ((condition.sitesOf c).append (sitesOf c thenBranch)).append (sitesOf c elseBranch)
    | .loop condition body => exact (condition.sitesOf c).append (sitesOf c body)
    | .function f => exact functionSitesOf _ _ f
    | .class _ methods => exact methodSitesOf _ methods
termination_by sizeOf s

theorem sitesOfAll (c : Context) (ss : List Stmt) : SitesOf (r.sitesAll c ss) (Stmt.occurrencesAll ss) := by
  match ss with
  | [] =>
    rw [sitesAll]
    exact .nil
  | s :: ss =>
    rw [sitesAll]
    exact (sitesOf c s).append (sitesOfAll _ ss)
termination_by sizeOf ss

theorem functionSitesOf (place : Binding.Place) (c : Context) (f : Function) :
    SitesOf (r.functionSites place c f) f.occurrences := by
  match f with
  | .mk _ parameters body =>
    rw [functionSites]
    exact sitesOfAll _ body
termination_by sizeOf f

theorem methodSitesOf (c : Context) (fs : List Function) :
    SitesOf (r.methodSites c fs) (Function.occurrencesAll fs) := by
  match fs with
  | [] =>
    rw [methodSites]
    exact .nil
  | f :: fs =>
    rw [methodSites]
    exact (functionSitesOf _ c f).append (methodSitesOf c fs)
termination_by sizeOf fs

end

/-- In a program without syntax errors each occurrence has the distance of its place in the direct run. -/
theorem distances_agree {n n' : OccurrenceId} {program : List Stmt} (hp : Program.Read n n' program) (clock : Clock) :
    (⟨r.distances program, clock⟩ : Setting).Agrees (· ∈ r.sitesAll .top program) := by
  have hperm := ((r.sitesOfAll .top program).trans (Stmt.sitesOfAll .top program).symm).map Occurrence.id
  rw [List.map_map, List.map_map] at hperm
  intro σ hσ
  exact Interpreter.getElem?_foldl_noted (hperm.nodup_iff.2 hp.ids.nodup) hσ Std.ExtTreeMap.getElem?_empty

/-- The direct run of a program that binding accepts, and its run on a fresh interpreter. -/
def runs (i : Interpreter) (program : List Stmt) (clock : Clock) : TwoRuns where
  reading := r
  direct := ⟨r.distances program, clock⟩
  desugared := ⟨i.distances, clock⟩
  clock := rfl

/-- Binding a program leads to the same scopes as in the direct run. -/
theorem runs_aligned {n n' : OccurrenceId} {i : Interpreter} {program : List Stmt} (hp : Program.Read n n' program)
    (hb : Interpreter.initial.bind program = .ok i) (clock : Clock) :
    ∀ s ∈ program, s.Aligned (r.runs i program clock) [] := by
  have hc : Context.top.Layered [] .top := ⟨.nil, rfl⟩
  refine Stmt.alignedAll hc rfl (by simp [Layers.Open]) program hp.formed (r.distances_agree hp clock) ?_
  exact fun σ hσ => Interpreter.InOrder.initial.agrees (Nat.zero_le n) hp hb ⟨clock, 0⟩ σ (.inl hσ)

end Reading

end LoxLang
