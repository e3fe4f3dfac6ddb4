import LoxLang.Proofs.Scope.Sites

namespace LoxLang.Binding
open Scoping

/-- What the walk has in its scope for a frame: a name is there if the frame has it, its declaration complete. -/
def view (frame : Frame) (name : String) : Option Bool := (frame.lookup name).map fun _ => true

/-- What the walk has in its scopes at a place. A variable that is being initialized is there already, its
declaration not complete. -/
def views (c : Context) : List (String → Option Bool) :=
  match c.frames, c.initializing with
  | [], _ => []
  | frame :: frames, none => view frame :: frames.map view
  | frame :: frames, some x =>
    (fun name => if x = name then some false else view frame name) :: frames.map view

theorem views_complete {c : Context} (h : c.initializing = none) : views c = c.frames.map view := by
  unfold views
  rw [h]
  cases c.frames <;> rfl

def Agrees (w : Walk) (c : Context) : Prop := w.scopes.map NameMap.find? = views c

/-- What the walk notes at a site. -/
def noted (σ : Site) : Option (OccurrenceId × Nat) := σ.distance?.map fun d => (σ.id, d)

/-- What the walk notes at a site outside all functions. -/
def notedTopLevel (σ : Site) : Option OccurrenceId :=
  if σ.context.place.body = .topLevel then σ.distance?.map fun _ => σ.id else none

/-- A read in the initializer of the variable's own declaration, or a `this` outside all classes. -/
def Barred (σ : Site) : Prop :=
  σ.occurrence.form = .variable ∧ σ.InOwnInitializer ∨
    σ.occurrence.form = .this ∧ σ.context.place.inClass = false

/-- A part of the walk that, if nothing has been reported at its end, goes from one context to another over the
sites told, none of them barred, and under the condition told. -/
structure Passes (f : Walk → Walk) (c c' : Context) (σs : List Site) (P : Prop) : Prop where
  errors : ∀ w, (f w).errors = #[] → w.errors = #[]
  passes : ∀ w, Agrees w c → (f w).errors = #[] →
    Agrees (f w) c' ∧ (f w).distances.toList = w.distances.toList ++ σs.filterMap noted ∧
      (f w).topLevel.toList = w.topLevel.toList ++ σs.filterMap notedTopLevel ∧
      (∀ σ ∈ σs, ¬Barred σ) ∧ P

namespace Passes

variable {f g : Walk → Walk} {c c' c'' : Context} {σs τs : List Site} {P Q : Prop}

theorem id (hP : P) : Passes (fun w => w) c c [] P where
  errors := fun _ h => h
  passes := fun _ ha _ => ⟨ha, by simp, by simp, by simp, hP⟩

theorem mono (h : Passes f c c' σs P) (hi : P → Q) : Passes f c c' σs Q where
  errors := h.errors
  passes := fun w ha he =>
    have ⟨h₁, h₂, h₃, h₄, hP⟩ := h.passes w ha he
    ⟨h₁, h₂, h₃, h₄, hi hP⟩

theorem comp (hf : Passes f c c' σs P) (hg : Passes g c' c'' τs Q) :
    Passes (fun w => g (f w)) c c'' (σs ++ τs) (P ∧ Q) where
  errors := fun w he => hf.errors w (hg.errors _ he)
  passes := by
    intro w ha he
    obtain ⟨ha', hd, ht, hb, hP⟩ := hf.passes w ha (hg.errors _ he)
    obtain ⟨ha'', hd', ht', hb', hQ⟩ := hg.passes _ ha' he
    refine ⟨ha'', by simp [hd', hd], by simp [ht', ht], fun σ hσ => ?_, hP, hQ⟩
    rcases List.mem_append.1 hσ with hσ | hσ
    · exact hb σ hσ
    · exact hb' σ hσ

/-- A scope of the walk's own around a part of it. -/
theorem inScope {scope : Scope} {frame : Frame} {c₁ c₂ : Context} (h : Passes f c₁ c₂ σs P)
    (hs : scope.find? = view frame) (hc : c.initializing = none) (hf₁ : c₁.frames = frame :: c.frames)
    (hi₁ : c₁.initializing = none) (hf₂ : c₂.frames.tail = c.frames) (hi₂ : c₂.initializing = none) :
    Passes (fun w => w.inScope scope f) c c σs P where
  errors := fun w he => h.errors { w with scopes := scope :: w.scopes } he
  passes := by
    intro w ha he
    unfold Agrees at ha
    rw [views_complete hc] at ha
    have hin : Agrees { w with scopes := scope :: w.scopes } c₁ := by
      unfold Agrees
      rw [views_complete hi₁, hf₁, List.map_cons, List.map_cons, hs, ha]
    obtain ⟨ha', hd, ht, hb, hP⟩ := h.passes _ hin he
    unfold Agrees at ha'
    rw [views_complete hi₂] at ha'
    refine ⟨?_, hd, ht, hb, hP⟩
    unfold Agrees
    rw [views_complete hc, ← hf₂, ← List.drop_one, List.map_drop, ← ha', ← List.map_drop]
    rfl

end Passes

theorem findIdx?_view (name : String) (frames : List Frame) :
    (frames.map view).findIdx? (fun v => (v name).isSome) = (declaration? name frames).map Prod.fst := by
  induction frames with
  | nil => rfl
  | cons frame frames ih =>
    rw [List.map_cons, List.findIdx?_cons, ih, declaration?]
    cases h : frame.lookup name with
    | some form => simp [view, h]
    | none => cases declaration? name frames <;> simp [view, h]

/-- The walk finds a name where the text declares it, and finds a variable in the innermost scope while it is being
initialized. -/
theorem findIdx?_views (name : String) (c : Context) :
    (views c).findIdx? (fun v => (v name).isSome) =
      if c.initializing = some name ∧ c.frames ≠ [] then some 0
      else (declaration? name c.frames).map Prod.fst := by
  obtain ⟨frames, initializing, place⟩ := c
  cases frames with
  | nil => cases initializing <;> simp [views, declaration?]
  | cons frame frames =>
    have h := findIdx?_view name (frame :: frames)
    cases initializing with
    | none => simpa [views] using h
    | some x =>
      by_cases hx : x = name
      · simp [views, hx, List.findIdx?_cons]
      · rw [List.map_cons, List.findIdx?_cons] at h
        simpa [views, hx, List.findIdx?_cons] using h

theorem distance?_eq {w : Walk} {σ : Site} (h : Agrees w σ.context) : w.distance? σ.name = σ.distance? := by
  have hw : w.distance? σ.name = (views σ.context).findIdx? fun v => (v σ.name).isSome := by
    rw [← h, List.findIdx?_map]
    rfl
  rw [hw, findIdx?_views]
  rfl

/-- What is noted of a site that is not barred is its distance. -/
theorem note_passes {c : Context} {form : Occurrence.Form} {i : OccurrenceId} {name : Token}
    (hb : ¬Barred ⟨⟨form, i, name⟩, c⟩) :
    Passes (fun w => w.note c.place i name) c c [⟨⟨form, i, name⟩, c⟩] True where
  errors := by
    intro w he
    unfold Walk.note at he
    split at he
    · exact he
    · split at he <;> exact he
  passes := by
    intro w ha _
    have hd : w.distance? name.lexeme = Site.distance? ⟨⟨form, i, name⟩, c⟩ :=
      distance?_eq (σ := ⟨⟨form, i, name⟩, c⟩) ha
    unfold Walk.note
    rw [hd]
    cases hs : Site.distance? ⟨⟨form, i, name⟩, c⟩ with
    | none => exact ⟨ha, by simp [noted, hs], by simp [notedTopLevel, hs], by simpa using hb, trivial⟩
    | some d =>
      by_cases hp : c.place.body = .topLevel
      · refine ⟨?_, ?_, ?_, by simpa using hb, trivial⟩
        · simpa [hp, Agrees] using ha
        · simp [noted, hs, hp, Site.id]
        · simp [notedTopLevel, hs, hp, Site.id]
      · refine ⟨?_, ?_, ?_, by simpa using hb, trivial⟩
        · simpa [hp, Agrees] using ha
        · simp [noted, hs, hp, Site.id]
        · simp [notedTopLevel, hp]

/-- A name is incomplete exactly in its own initializer. -/
theorem isIncomplete_iff {w : Walk} {c : Context} (h : Agrees w c) (name : Token) :
    w.isIncomplete name = true ↔ c.initializing = some name.lexeme ∧ c.frames ≠ [] := by
  obtain ⟨frames, initializing, place⟩ := c
  unfold Agrees views at h
  unfold Walk.isIncomplete
  cases hs : w.scopes with
  | nil => cases frames <;> cases initializing <;> simp_all
  | cons scope scopes =>
    rw [hs, List.map_cons] at h
    cases frames with
    | nil => cases initializing <;> simp at h
    | cons frame frames =>
      have hv : ∀ x, view frame x ≠ some false := by
        intro x
        unfold view
        cases frame.lookup x <;> simp
      cases initializing with
      | none =>
        simp only [List.cons.injEq] at h
        simp [h.1, hv]
      | some y =>
        simp only [List.cons.injEq] at h
        by_cases hy : y = name.lexeme <;> simp [h.1, hy, hv]

theorem push_ne_empty {α : Type} (a : Array α) (x : α) : a.push x ≠ #[] := by simp

/-- A part of the walk that reports something does not end without errors. -/
theorem Passes.of_report {f : Walk → Walk} {c c' : Context} {σs : List Site} {P : Prop}
    (h : ∀ w, (f w).errors ≠ #[]) : Passes f c c' σs P where
  errors := fun w he => absurd he (h w)
  passes := fun w _ he => absurd he (h w)

theorem note_errors (w : Walk) (place : Place) (i : OccurrenceId) (name : Token) :
    (w.note place i name).errors = w.errors := by
  unfold Walk.note
  split
  · rfl
  · split <;> rfl

theorem variable_passes (c : Context) (i : OccurrenceId) (name : Token) :
    Passes (expr c.place (.variable i name)) c c (Expr.sites c (.variable i name)) True where
  errors := by
    intro w he
    simp only [expr, note_errors] at he
    split at he
    · exact absurd he (push_ne_empty _ _)
    · exact he
  passes := by
    intro w ha he
    by_cases hi : w.isIncomplete name = true
    · simp only [expr, hi, if_true, note_errors] at he
      exact absurd he (push_ne_empty _ _)
    · have hb : ¬Barred ⟨⟨.variable, i, name⟩, c⟩ := by
        rintro (⟨-, h⟩ | ⟨h, -⟩)
        · exact hi ((isIncomplete_iff ha name).2 h)
        · cases h
      simp only [expr, hi] at he ⊢
      exact (note_passes hb).passes w ha he

theorem this_passes (c : Context) (i : OccurrenceId) (keyword : Token) :
    Passes (expr c.place (.this i keyword)) c c (Expr.sites c (.this i keyword)) True := by
  cases hc : c.place.inClass with
  | false =>
    refine .of_report fun w => ?_
    simp only [expr, hc]
    exact push_ne_empty _ _
  | true =>
    have hb : ¬Barred ⟨⟨.this, i, keyword⟩, c⟩ := by
      rintro (⟨h, -⟩ | ⟨-, h⟩)
      · cases h
      · rw [hc] at h; cases h
    have hf : expr c.place (.this i keyword) = fun w => w.note c.place i keyword := by
      funext w
      simp [expr, hc]
    rw [hf]
    exact note_passes hb

mutual

theorem expr_passes (c : Context) : (e : Expr) → Passes (expr c.place e) c c (e.sites c) True
  | .literal _ => .id trivial
  | .group inner => expr_passes c inner
  | .unary _ operand => expr_passes c operand
  | .binary left _ right | .logical left _ right => by
    exact ((expr_passes c left).comp (expr_passes c right)).mono fun _ => trivial
  | .ternary condition thenBranch elseBranch => by
    exact (((expr_passes c condition).comp (expr_passes c thenBranch)).comp (expr_passes c elseBranch)).mono
      fun _ => trivial
  | .variable i name => variable_passes c i name
  | .assign i name value => by
    have hb : ¬Barred ⟨⟨.assign, i, name⟩, c⟩ := by
      rintro (⟨h, -⟩ | ⟨h, -⟩) <;> cases h
    exact ((expr_passes c value).comp (note_passes hb)).mono fun _ => trivial
  | .this i keyword => this_passes c i keyword
  | .call callee _ arguments => by
    exact ((expr_passes c callee).comp (exprs_pass c arguments)).mono fun _ => trivial
  | .get object _ => expr_passes c object
  | .set object _ value => by
    exact ((expr_passes c value).comp (expr_passes c object)).mono fun _ => trivial

theorem exprs_pass (c : Context) : (es : List Expr) → Passes (exprs c.place es) c c (Expr.sitesAll c es) True
  | [] => .id trivial
  | e :: es => by
    exact ((expr_passes c e).comp (exprs_pass c es)).mono fun _ => trivial

end

/-- Where nothing is reported, the name was new to its scope. -/
theorem declare_passes {c : Context} (hc : c.initializing = none) (name : Token) :
    Passes (·.declare name) c (c.inInitializer name) [] (c.Fresh name.lexeme) where
  errors := by
    intro w he
    unfold Walk.declare at he
    split at he
    · exact he
    · split at he
      · exact absurd he (push_ne_empty _ _)
      · exact he
  passes := by
    intro w ha he
    obtain ⟨frames, initializing, place⟩ := c
    cases hc
    unfold Agrees views at ha
    unfold Walk.declare at he ⊢
    cases hs : w.scopes with
    | nil =>
      rw [hs] at ha
      cases frames with
      | cons => cases ha
      | nil =>
        exact ⟨by simp [Agrees, views, Context.inInitializer, hs], by simp, by simp, by simp, by simp [Context.Fresh]⟩
    | cons scope scopes =>
      rw [hs] at ha
      simp only [hs] at he ⊢
      cases frames with
      | nil => cases ha
      | cons frame frames =>
        simp only [List.map_cons, List.cons.injEq] at ha
        split at he
        · exact absurd he (push_ne_empty _ _)
        · next hcont =>
          rw [if_neg hcont]
          refine ⟨?_, by simp, by simp, by simp, ?_⟩
          · simp only [Agrees, views, Context.inInitializer, List.map_cons, List.cons.injEq, ha, and_true]
            funext x
            rw [NameMap.find?_set, ha.1]
          · have hv : view frame name.lexeme = none := by simpa [NameMap.contains, ha.1] using hcont
            rintro _ ⟨⟩
            exact Option.map_eq_none_iff.1 hv

theorem view_append (frame : Frame) (name x : String) (form : Form) :
    view (frame ++ [(name, form)]) x = if name = x then some true else view frame x := by
  unfold view
  rw [List.lookup_append]
  by_cases hx : name = x
  · subst hx
    cases frame.lookup name <;> simp
  · have : (x == name) = false := by simpa using fun h => hx h.symm
    cases frame.lookup x <;> simp [hx, List.lookup_cons, this]

theorem define_passes {c : Context} (hc : c.initializing = none) (name : Token) (form : Form) :
    Passes (·.define name) (c.inInitializer name) (c.declare name form) [] True where
  errors := by
    intro w he
    unfold Walk.define at he
    split at he <;> exact he
  passes := by
    intro w ha _
    obtain ⟨frames, initializing, place⟩ := c
    cases hc
    unfold Agrees views at ha
    unfold Walk.define
    cases hs : w.scopes with
    | nil =>
      rw [hs] at ha
      cases frames with
      | cons => cases ha
      | nil => exact ⟨by simp [Agrees, views, Context.declare, hs], by simp, by simp, by simp, trivial⟩
    | cons scope scopes =>
      rw [hs] at ha
      cases frames with
      | nil => cases ha
      | cons frame frames =>
        simp only [Context.inInitializer, List.map_cons, List.cons.injEq] at ha
        refine ⟨?_, by simp, by simp, by simp, trivial⟩
        simp only [Agrees, views, Context.declare, List.map_cons, List.cons.injEq, ha, and_true]
        funext x
        rw [NameMap.find?_set, ha.1, view_append]
        by_cases hx : name.lexeme = x <;> simp [hx]

theorem declare_define_passes {c : Context} (hc : c.initializing = none) (name : Token) (form : Form) :
    Passes (fun w => (w.declare name).define name) c (c.declare name form) [] (c.Fresh name.lexeme) :=
  ((declare_passes hc name).comp (define_passes hc name form)).mono And.left

/-- Parameters that are reported by no one are all different. -/
theorem parameters_pass {c : Context} (hc : c.initializing = none) (frame : Frame) (ps : List Token) :
    Passes (fun w => ps.foldl (fun w p => (w.declare p).define p) w) (c.inside frame)
      (c.inside (frame ++ ps.map fun p => (p.lexeme, .parameter))) []
      ((ps.map Token.lexeme).Nodup ∧ ∀ p ∈ ps, frame.lookup p.lexeme = none) := by
  induction ps generalizing frame with
  | nil => simpa using Passes.id (c := c.inside frame) (P := True) trivial
  | cons p ps ih =>
    have h := (declare_define_passes (c := c.inside frame) hc p .parameter).comp
      (ih (frame ++ [(p.lexeme, .parameter)]))
    simp only [List.append_assoc] at h
    refine h.mono ?_
    rintro ⟨hp, hn, hps⟩
    have hne : ∀ q ∈ ps, frame.lookup q.lexeme = none ∧ q.lexeme ≠ p.lexeme := by
      intro q hq
      have h := hps q hq
      rw [List.lookup_append] at h
      cases hl : frame.lookup q.lexeme with
      | some => simp [hl] at h
      | none =>
        rw [hl] at h
        refine ⟨rfl, fun he => ?_⟩
        simp [he] at h
    refine ⟨?_, fun q hq => ?_⟩
    · rw [List.map_cons, List.nodup_cons]
      refine ⟨fun hm => ?_, hn⟩
      obtain ⟨q, hq, he⟩ := List.mem_map.1 hm
      exact (hne q hq).2 he
    · rcases List.mem_cons.1 hq with rfl | hq
      · exact hp frame rfl
      · exact (hne q hq).1

theorem thisScope_view (x : String) : thisScope.find? x = view [("this", .this)] x := by
  have h := view_append [] "this" x .this
  rw [List.nil_append] at h
  rw [h, thisScope, NameMap.find?_set]
  rfl

theorem checkReturn_passes (c : Context) (keyword : Token) (hasValue : Bool) :
    Passes (checkReturn c.place keyword hasValue) c c [] True where
  errors := by
    intro w he
    unfold checkReturn at he
    dsimp only at he
    split at he
    · exact absurd he (push_ne_empty _ _)
    · split at he
      · exact absurd he (push_ne_empty _ _)
      · exact he
  passes := by
    intro w ha he
    unfold checkReturn at he ⊢
    by_cases hr : (hasValue && decide (c.place.body = .initializer)) = true
    · simp only [hr, if_true] at he
      exact absurd he (push_ne_empty _ _)
    · simp only [hr] at he ⊢
      by_cases ht : c.place.body = .topLevel
      · simp only [ht, if_true] at he
        exact absurd he (push_ne_empty _ _)
      · simp only [ht]
        exact ⟨ha, by simp, by simp, by simp, trivial⟩

mutual

/-- By induction on the statement. Nothing is known of a walk that reports something, so what is said is said of its
end. -/
theorem stmt_passes (c : Context) (hc : c.initializing = none) :
    (s : Stmt) → s.Formed → Passes (stmt c.place s) c (c.after s) (s.sites c) (s.Tidy c)
  | .expression value, _ => expr_passes c value
  | .print value, _ => expr_passes c value
  | .var name none, _ => declare_define_passes hc name .bare
  | .var name (some value), _ => by
    have h := ((declare_passes hc name).comp (expr_passes (c.inInitializer name) value)).comp
      (define_passes hc name .initialized)
    rw [List.nil_append, List.append_nil] at h
    exact h.mono fun h => h.1.1
  | .block body, hs => by
    have h := stmts_pass (c.inside []) hc body hs
    exact h.inScope rfl hc rfl hc (Context.afterAll_tail _ body)
      ((Context.afterAll_initializing _ body).trans hc)
  | .branch condition thenBranch none, hs => by
    have h := (expr_passes c condition).comp (stmt_passes c hc thenBranch hs.2)
    rw [Context.after_of_not_declaration hs.1] at h
    exact h.mono And.right
  | .branch condition thenBranch (some elseBranch), hs => by
    have hyes := stmt_passes c hc thenBranch hs.1.2
    have hno := stmt_passes c hc elseBranch hs.2.2
    rw [Context.after_of_not_declaration hs.1.1] at hyes
    rw [Context.after_of_not_declaration hs.2.1] at hno
    exact (((expr_passes c condition).comp hyes).comp hno).mono fun h => ⟨h.1.2, h.2⟩
  | .loop condition body, hs => by
    have h := (expr_passes c condition).comp (stmt_passes c hc body hs.2)
    rw [Context.after_of_not_declaration hs.1] at h
    exact h.mono And.right
  | .break _, _ => .id trivial
  | .return keyword none, _ => checkReturn_passes c keyword false
  | .return keyword (some value), _ =>
    ((checkReturn_passes c keyword true).comp (expr_passes c value)).mono fun _ => trivial
  | .function f, hs => by
    have hd := (Context.declare_initializing c f.name .function).trans hc
    exact (declare_define_passes hc f.name .function).comp
      (function_passes (c.declare f.name .function) ⟨.function, c.place.inClass⟩ hd f hs)
  | .class name declared, hs => by
    have hd := (Context.declare_initializing c name .class).trans hc
    have h := methods_pass (c.declare name .class).inClass hd declared hs
    exact (declare_define_passes hc name .class).comp
      (h.inScope (by funext x; exact thisScope_view x) hd rfl hd rfl hd)

theorem stmts_pass (c : Context) (hc : c.initializing = none) :
    (ss : List Stmt) → Stmt.FormedAll ss →
    Passes (stmts c.place ss) c (c.afterAll ss) (Stmt.sitesAll c ss) (Stmt.TidyAll c ss)
  | [], _ => .id trivial
  | s :: ss, hs => by
    have h := stmts_pass (c.after s) ((Context.after_initializing c s).trans hc) ss hs.2
    rw [Context.after_place] at h
    exact (stmt_passes c hc s hs.1).comp h

theorem function_passes (c : Context) (place : Place) (hc : c.initializing = none) :
    (f : Function) → f.Formed → Passes (function place f) c c (f.sites place c) (f.Tidy place c)
  | .mk name parameters body, hs => by
    have hp := parameters_pass (c := { c with place := place }) hc [] parameters
    have hb := stmts_pass (c.inBody place parameters) hc body hs
    have h : Passes (function place (.mk name parameters body)) c c _ _ :=
      (hp.comp hb).inScope rfl hc rfl hc (Context.afterAll_tail _ body)
        ((Context.afterAll_initializing _ body).trans hc)
    exact h.mono fun h => ⟨h.1.1, h.2⟩

theorem methods_pass (c : Context) (hc : c.initializing = none) :
    (fs : List Function) → Function.FormedAll fs →
    Passes (methods fs) c c (Function.sitesAll c fs) (Function.TidyAll c fs)
  | [], _ => .id trivial
  | f :: fs, hs => (function_passes c (methodPlace f) hc f hs.1).comp (methods_pass c hc fs hs.2)

end

/-- What is known of a program that the walk accepts. -/
theorem ofProgram_ok {program : List Stmt} {b : Binding} (hf : Stmt.FormedAll program)
    (h : ofProgram program = .ok b) :
    b.distances = (Stmt.sitesAll .top program).filterMap noted ∧
      b.topLevel = (Stmt.sitesAll .top program).filterMap notedTopLevel ∧
      (∀ σ ∈ Stmt.sitesAll .top program, ¬Barred σ) ∧ Stmt.TidyAll .top program := by
  unfold ofProgram at h
  dsimp only at h
  split at h
  · next he =>
    cases h
    have he : (stmts Context.top.place program .start).errors = #[] := Array.isEmpty_iff.1 he
    obtain ⟨-, hd, ht, hb, htidy⟩ := (stmts_pass .top rfl program hf).passes .start rfl he
    exact ⟨by simpa [Walk.start, Context.top] using hd, by simpa [Walk.start, Context.top] using ht, hb, htidy⟩
  · cases h

end LoxLang.Binding
