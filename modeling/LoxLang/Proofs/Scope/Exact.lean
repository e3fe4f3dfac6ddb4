import Mathlib.Data.List.Forall2
import LoxLang.Proofs.Scope.Surroundings
import LoxLang.Proofs.Scope.Seam

namespace LoxLang
open Scoping Binding

namespace Scoping

namespace Mention

/-- The rule that a mention breaks. -/
def breach? (m : Mention) : Option BindingError.Cause :=
  match m.form, m.surroundings with
  | .declaration, ⟨c :: _, _⟩ => if m.token.lexeme ∈ c.names then some .redeclared else none
  | .variable _, ⟨c :: _, some x⟩ =>
    if x.lexeme = m.token.lexeme ∧ x.lexeme ∉ c.names then some .readInInitializer else none
  | .return hasValue, S =>
    match Construct.routine? S.constructs with
    | none => some .returnAtTopLevel
    | some routine => if hasValue ∧ routine = .initializer then some .returnFromInitializer else none
  | .this _, S => if Construct.inClass S.constructs then none else some .thisOutsideClass
  | _, _ => none

/-- A mention breaks one rule at most, and which one is computed. -/
theorem breach?_iff (m : Mention) (cause : BindingError.Cause) : m.breach? = some cause ↔ m.Breaks cause := by
  obtain ⟨form, token, ⟨cs, x⟩⟩ := m
  constructor
  · intro h
    cases form with
    | declaration =>
      cases cs with
      | nil => cases h
      | cons c cs =>
        obtain ⟨hmem, rfl⟩ : token.lexeme ∈ c.names ∧ .redeclared = cause := by simpa [breach?] using h
        exact .redeclared hmem
    | «variable» id =>
      cases cs with
      | nil => cases h
      | cons c cs =>
        cases x with
        | none => cases h
        | some x =>
          obtain ⟨⟨hx, hnew⟩, rfl⟩ :
              (x.lexeme = token.lexeme ∧ x.lexeme ∉ c.names) ∧ .readInInitializer = cause := by
            simpa [breach?] using h
          exact .readInInitializer hx hnew
    | assign id => cases h
    | this id =>
      obtain ⟨hclass, rfl⟩ : Construct.inClass cs = false ∧ .thisOutsideClass = cause := by simpa [breach?] using h
      exact .thisOutsideClass hclass
    | «return» hasValue =>
      cases hr : Construct.routine? cs with
      | none =>
        obtain rfl : .returnAtTopLevel = cause := by simpa [breach?, hr] using h
        exact .returnAtTopLevel hr
      | some routine =>
        obtain ⟨⟨rfl, rfl⟩, rfl⟩ : (hasValue ∧ routine = .initializer) ∧ .returnFromInitializer = cause := by
          simpa [breach?, hr] using h
        exact .returnFromInitializer hr
  · intro h
    cases h with
    | redeclared h => simp [breach?, h]
    | readInInitializer h hnew => simp [breach?, h, h ▸ hnew]
    | returnAtTopLevel h => simp [breach?, h]
    | returnFromInitializer h => simp [breach?, h]
    | thisOutsideClass h => simp [breach?, h]

instance (m : Mention) : Decidable (∃ cause, m.Breaks cause) :=
  decidable_of_iff (m.breach?.isSome = true) (by simp [Option.isSome_iff_exists, breach?_iff])

def error? (m : Mention) : Option BindingError := m.breach?.map fun cause => ⟨cause, m.token⟩

/-- What is noted at a mention: how far the scope is that it is bound to. -/
def noted? (m : Mention) : Option (OccurrenceId × Nat) :=
  match m.form with
  | .variable id | .assign id => (m.surroundings.distance? m.token.lexeme).map fun d => (id, d)
  | .this id =>
    if Construct.inClass m.surroundings.constructs then
      (m.surroundings.distance? m.token.lexeme).map fun d => (id, d)
    else none
  | _ => none

end Mention

namespace Construct

/-- The declarations that a scope has are complete. -/
def view (c : Construct) (name : String) : Option Bool := if name ∈ c.names then some true else none

/-- The innermost scope has the variable that is being initialized, its declaration not complete unless the name was
there before. -/
def innermostView (c : Construct) (initializing : Option Token) (name : String) : Option Bool :=
  if name ∈ c.names then some true
  else if initializing.map Token.lexeme = some name then some false else none

theorem innermostView_none (c : Construct) : c.innermostView none = c.view := by
  funext name
  simp [innermostView, view]

/-- The scope has the names of a statement once it has been passed. -/
theorem names_after (c : Construct) (s : Stmt) :
    ({ c with before := c.before ++ [s] } : Construct).names = c.names ++ s.declared := by
  simp [names]

/-- A statement that has been passed opens no body and no class around what follows. -/
theorem place_after (s : Stmt) (cs : List Construct) : place (after s cs) = place cs := by
  cases cs <;> rfl

theorem inClass_after (s : Stmt) (cs : List Construct) :
    inClass (after s cs) = inClass cs := by
  cases cs <;> rfl

def afterAll (ss : List Stmt) (cs : List Construct) : List Construct := ss.foldl (fun cs s => after s cs) cs

theorem afterAll_cons (ss : List Stmt) (c : Construct) (cs : List Construct) :
    afterAll ss (c :: cs) = { c with before := c.before ++ ss } :: cs := by
  induction ss generalizing c with
  | nil => simp [afterAll]
  | cons s ss ih =>
    have h := ih { c with before := c.before ++ [s] }
    rw [List.append_assoc] at h
    exact h

end Construct

namespace Surroundings

def views (S : Surroundings) : List (String → Option Bool) :=
  match S.constructs with
  | [] => []
  | c :: cs => c.innermostView S.initializing :: cs.map Construct.view

theorem views_none (cs : List Construct) : views ⟨cs, none⟩ = cs.map Construct.view := by
  cases cs with
  | nil => rfl
  | cons c cs => simp [views, Construct.innermostView_none]

theorem view_isSome (c : Construct) (name : String) : (c.view name).isSome = c.names.contains name := by
  by_cases h : name ∈ c.names <;> simp [Construct.view, h]

/-- What the walk has in its scopes tells distances. -/
theorem findIdx?_views (S : Surroundings) (name : String) :
    S.views.findIdx? (fun view => (view name).isSome) = S.distance? name := by
  obtain ⟨cs, x⟩ := S
  unfold distance? scopes views
  cases cs with
  | nil => rfl
  | cons c cs =>
    have hfirst : (c.innermostView x name).isSome = (c.names ++ (x.map Token.lexeme).toList).contains name := by
      cases x with
      | none => simp [Construct.innermostView_none, view_isSome]
      | some x =>
        by_cases h : name ∈ c.names
        · simp [Construct.innermostView, h]
        · by_cases hx : x.lexeme = name
          · simp [Construct.innermostView, h, hx]
          · simp [Construct.innermostView, h, hx, Ne.symm hx]
    have hrest : (cs.map Construct.view).findIdx? (fun view => (view name).isSome) =
        (cs.map Construct.names).findIdx? (·.contains name) := by
      rw [List.findIdx?_map, List.findIdx?_map]
      congr 1
      funext d
      exact view_isSome d name
    dsimp only
    rw [List.findIdx?_cons, List.findIdx?_cons, hfirst, hrest]

end Surroundings

end Scoping

namespace Binding

/-- What the walk has in its scopes is what the surroundings tell. -/
def Walk.Matches (w : Walk) (S : Surroundings) : Prop := w.scopes.map NameMap.find? = S.views

/-- A part of the walk that goes from one place to another and reports and notes what the mentions tell. -/
def Meets (f : Walk → Walk) (S S' : Surroundings) (ms : List Mention) : Prop :=
  ∀ w, w.Matches S → (f w).Matches S' ∧ (f w).errors.toList = w.errors.toList ++ ms.filterMap Mention.error? ∧
    (f w).distances.toList = w.distances.toList ++ ms.filterMap Mention.noted?

namespace Meets

variable {f g : Walk → Walk} {S S' S'' : Surroundings} {ms ns : List Mention}

theorem id (S : Surroundings) : Meets (fun w => w) S S [] := fun _ h => ⟨h, by simp, by simp⟩

/-- One part of the walk after another: the mentions of the first, and then those of the second. -/
theorem comp (hf : Meets f S S' ms) (hg : Meets g S' S'' ns) : Meets (fun w => g (f w)) S S'' (ms ++ ns) := by
  intro w hw
  obtain ⟨hm, he, hd⟩ := hf w hw
  obtain ⟨hm', he', hd'⟩ := hg _ hm
  refine ⟨hm', ?_, ?_⟩
  · rw [he', he, List.filterMap_append, List.append_assoc]
  · rw [hd', hd, List.filterMap_append, List.append_assoc]

theorem quietly (hf : Meets f S S' ms) (hg : Meets g S' S'' []) : Meets (fun w => g (f w)) S S'' ms := by
  have h := hf.comp hg
  rwa [List.append_nil] at h

/-- Only the names that scopes have matter to the walk. -/
theorem congr (hf : Meets f S S' ms) (h : S'.views = S''.views) : Meets f S S'' ms := by
  intro w hw
  obtain ⟨hm, he, hd⟩ := hf w hw
  exact ⟨hm.trans h, he, hd⟩

/-- A scope of the walk's own around a part of it. -/
theorem inScope {scope : Scope} {c c' : Construct} {cs : List Construct} (hs : scope.find? = c.view)
    (hf : Meets f ⟨c :: cs, none⟩ ⟨c' :: cs, none⟩ ms) :
    Meets (fun w => w.inScope scope f) ⟨cs, none⟩ ⟨cs, none⟩ ms := by
  intro w hw
  unfold Walk.Matches at hw
  rw [Surroundings.views_none] at hw
  have hin : ({ w with scopes := scope :: w.scopes } : Walk).Matches ⟨c :: cs, none⟩ := by
    unfold Walk.Matches
    rw [Surroundings.views_none, List.map_cons, List.map_cons, hs, hw]
  obtain ⟨hm, he, hd⟩ := hf _ hin
  refine ⟨?_, he, hd⟩
  unfold Walk.Matches at hm ⊢
  rw [Surroundings.views_none, List.map_cons] at hm
  rw [Surroundings.views_none]
  change ((f { w with scopes := scope :: w.scopes }).scopes.drop 1).map NameMap.find? = _
  rw [List.map_drop, hm]
  rfl

/-- A part that leaves the scopes as they are, at one mention. -/
theorem of_scopes_eq {m : Mention} (hs : ∀ w, (f w).scopes = w.scopes)
    (he : ∀ w, w.Matches S → (f w).errors.toList = w.errors.toList ++ m.error?.toList)
    (hd : ∀ w, w.Matches S → (f w).distances.toList = w.distances.toList ++ m.noted?.toList) : Meets f S S [m] := by
  intro w hw
  refine ⟨?_, ?_, ?_⟩
  · unfold Walk.Matches
    rw [hs, hw]
  · rw [he w hw]
    cases h : m.error? <;> simp [h]
  · rw [hd w hw]
    cases h : m.noted? <;> simp [h]

end Meets

variable {w : Walk} {S : Surroundings} {cs : List Construct}

/-- The walk counts its scopes as the surroundings do. -/
theorem distance?_matches (hw : w.Matches S) (name : String) : w.distance? name = S.distance? name := by
  rw [← Surroundings.findIdx?_views, ← hw, List.findIdx?_map]
  rfl

/-- A name is noted with its distance if a scope has it, and not at all otherwise. -/
theorem note_distances (hw : w.Matches S) (place : Place) (id : OccurrenceId) (name : Token) :
    (w.note place id name).distances.toList =
      w.distances.toList ++ ((S.distance? name.lexeme).map fun d => (id, d)).toList := by
  unfold Walk.note
  rw [distance?_matches hw]
  cases S.distance? name.lexeme with
  | none => simp
  | some d =>
    dsimp only
    split <;> simp

theorem note_scopes (w : Walk) (place : Place) (id : OccurrenceId) (name : Token) :
    (w.note place id name).scopes = w.scopes := by
  unfold Walk.note
  split
  · rfl
  · split <;> rfl

theorem matches_cons {c : Construct} {x : Option Token} (hw : w.Matches ⟨c :: cs, x⟩) :
    ∃ scope outer, w.scopes = scope :: outer ∧ scope.find? = c.innermostView x ∧
      outer.map NameMap.find? = cs.map Construct.view := by
  unfold Walk.Matches at hw
  cases hscopes : w.scopes with
  | nil =>
    rw [hscopes] at hw
    cases hw
  | cons scope outer =>
    rw [hscopes] at hw
    exact ⟨scope, outer, rfl, (List.cons.inj hw).1, (List.cons.inj hw).2⟩

/-- A read breaks a rule where the walk has the name incomplete. -/
theorem isIncomplete_matches (hw : w.Matches S) (id : OccurrenceId) (name : Token) :
    Mention.breach? ⟨.variable id, name, S⟩ =
      if w.isIncomplete name then some .readInInitializer else none := by
  obtain ⟨cs, x⟩ := S
  cases cs with
  | nil =>
    have hscopes : w.scopes = [] := List.map_eq_nil_iff.1 hw
    have hincomplete : w.isIncomplete name = false := by
      unfold Walk.isIncomplete
      rw [hscopes]
    rw [hincomplete]
    rfl
  | cons c cs =>
    obtain ⟨scope, outer, hscopes, hfind, -⟩ := matches_cons hw
    have hincomplete : w.isIncomplete name = (c.innermostView x name.lexeme == some false) := by
      unfold Walk.isIncomplete
      rw [hscopes, ← hfind]
    rw [hincomplete]
    cases x with
    | none => by_cases hn : name.lexeme ∈ c.names <;> simp [Mention.breach?, Construct.innermostView, hn]
    | some x =>
      by_cases hx : x.lexeme = name.lexeme
      · by_cases hn : name.lexeme ∈ c.names <;> simp [Mention.breach?, Construct.innermostView, hn, hx]
      · by_cases hn : name.lexeme ∈ c.names <;> simp [Mention.breach?, Construct.innermostView, hn, hx]

/-- A read is reported in its own initializer, and noted in any case. -/
theorem variable_meets (S : Surroundings) (place : Place) (id : OccurrenceId) (name : Token) :
    Meets (expr place (.variable id name)) S S [⟨.variable id, name, S⟩] := by
  refine .of_scopes_eq (fun w => ?_) (fun w hw => ?_) fun w hw => ?_
  · rw [expr, note_scopes]
    split <;> rfl
  · rw [expr, note_errors]
    unfold Mention.error?
    rw [isIncomplete_matches hw]
    split <;> simp [Walk.report]
  · have hw' : (if w.isIncomplete name then w.report .readInInitializer name else w).Matches S := by
      split <;> exact hw
    rw [expr, note_distances hw']
    split <;> rfl

theorem assign_meets (S : Surroundings) (place : Place) (id : OccurrenceId) (name : Token) :
    Meets (fun w => w.note place id name) S S [⟨.assign id, name, S⟩] := by
  refine .of_scopes_eq (fun w => note_scopes w place id name) (fun w hw => ?_)
    fun w hw => note_distances hw place id name
  rw [note_errors]
  simp [Mention.error?, Mention.breach?]

/-- Outside all classes a `this` is reported and nothing is noted of it. -/
theorem this_meets (S : Surroundings) {place : Place} (hplace : place.inClass = Construct.inClass S.constructs)
    (id : OccurrenceId) (keyword : Token) :
    Meets (expr place (.this id keyword)) S S [⟨.this id, keyword, S⟩] := by
  have hwalk : ∀ w, expr place (.this id keyword) w =
      if Construct.inClass S.constructs then w.note place id keyword else w.report .thisOutsideClass keyword := by
    intro w
    rw [expr, hplace]
  refine .of_scopes_eq (fun w => ?_) (fun w hw => ?_) fun w hw => ?_
  · rw [hwalk]
    split
    · exact note_scopes w place id keyword
    · rfl
  · rw [hwalk]
    cases hc : Construct.inClass S.constructs with
    | true => simp [note_errors, Mention.error?, Mention.breach?, hc]
    | false => simp [Walk.report, Mention.error?, Mention.breach?, hc]
  · rw [hwalk]
    cases hc : Construct.inClass S.constructs with
    | true => simp [note_distances hw, Mention.noted?, hc]
    | false => simp [Walk.report, Mention.noted?, hc]

/-- What is wrong with a `return` is told by the nearest body. -/
theorem checkReturn_meets (cs : List Construct) (keyword : Token) (hasValue : Bool) :
    Meets (checkReturn (Construct.place cs) keyword hasValue) ⟨cs, none⟩ ⟨cs, none⟩
      [⟨.return hasValue, keyword, cs, none⟩] := by
  refine .of_scopes_eq (fun w => ?_) (fun w _ => ?_) fun w _ => ?_
  all_goals
    cases hr : Construct.routine? cs with
    | none =>
      simp [checkReturn, Construct.place, hr, Walk.report, Mention.error?, Mention.breach?, Mention.noted?]
    | some routine =>
      cases routine <;> cases hasValue <;>
        simp [checkReturn, Construct.place, hr, Routine.body, Walk.report, Mention.error?, Mention.breach?,
          Mention.noted?]

mutual

/-- By induction on the expression: it declares nothing, so the surroundings stay the same. -/
theorem expr_meets {place : Place} (S : Surroundings) (hp : place.inClass = Construct.inClass S.constructs) :
    (e : Expr) → Meets (expr place e) S S (e.mentions S)
  | .literal _ => .id S
  | .group inner => expr_meets S hp inner
  | .unary _ operand => expr_meets S hp operand
  | .binary left _ right => (expr_meets S hp left).comp (expr_meets S hp right)
  | .logical left _ right => (expr_meets S hp left).comp (expr_meets S hp right)
  | .ternary condition thenBranch elseBranch =>
    ((expr_meets S hp condition).comp (expr_meets S hp thenBranch)).comp (expr_meets S hp elseBranch)
  | .variable id name => variable_meets S place id name
  | .assign id name value => (expr_meets S hp value).comp (assign_meets S place id name)
  | .this id keyword => this_meets S hp id keyword
  | .call callee _ arguments => (expr_meets S hp callee).comp (exprs_meets S hp arguments)
  | .get object _ => expr_meets S hp object
  | .set object _ value => (expr_meets S hp value).comp (expr_meets S hp object)

theorem exprs_meets {place : Place} (S : Surroundings) (hp : place.inClass = Construct.inClass S.constructs) :
    (es : List Expr) → Meets (exprs place es) S S (Expr.mentionsAll S es)
  | [] => .id S
  | e :: es => (expr_meets S hp e).comp (exprs_meets S hp es)

end

/-- An expression that no variable is initialized by. -/
theorem expr_meets_inside (cs : List Construct) (e : Expr) :
    Meets (expr (Construct.place cs) e) ⟨cs, none⟩ ⟨cs, none⟩ (e.mentions ⟨cs, none⟩) :=
  expr_meets ⟨cs, none⟩ rfl e

/-- A declaration is reported if the innermost scope has the name by then. -/
theorem declare_meets (cs : List Construct) (name : Token) :
    Meets (fun w => w.declare name) ⟨cs, none⟩ ⟨cs, some name⟩ [⟨.declaration, name, cs, none⟩] := by
  intro w hw
  cases cs with
  | nil =>
    have hscopes : w.scopes = [] := List.map_eq_nil_iff.1 hw
    have hdeclare : w.declare name = w := by
      unfold Walk.declare
      rw [hscopes]
    dsimp only
    rw [hdeclare]
    exact ⟨hw, by simp [Mention.error?, Mention.breach?], by simp [Mention.noted?]⟩
  | cons c cs =>
    obtain ⟨scope, outer, hscopes, hfind, houter⟩ := matches_cons hw
    rw [Construct.innermostView_none] at hfind
    by_cases hname : name.lexeme ∈ c.names
    · have hdeclare : w.declare name = w.report .redeclared name := by
        unfold Walk.declare
        rw [hscopes]
        simp [NameMap.contains, hfind, Construct.view, hname]
      have hview : c.innermostView (some name) = c.view := by
        funext x
        by_cases hx : x ∈ c.names
        · simp [Construct.innermostView, Construct.view, hx]
        · have : name.lexeme ≠ x := fun h => hx (h ▸ hname)
          simp [Construct.innermostView, Construct.view, hx, this]
      dsimp only
      rw [hdeclare]
      refine ⟨?_, by simp [Walk.report, Mention.error?, Mention.breach?, hname], by simp [Walk.report, Mention.noted?]⟩
      change w.scopes.map NameMap.find? = c.innermostView (some name) :: cs.map Construct.view
      rw [hscopes, List.map_cons, hfind, houter, hview]
    · have hdeclare : w.declare name = { w with scopes := scope.set name.lexeme false :: outer } := by
        unfold Walk.declare
        rw [hscopes]
        simp [NameMap.contains, hfind, Construct.view, hname]
      have hview : (scope.set name.lexeme false).find? = c.innermostView (some name) := by
        funext x
        rw [NameMap.find?_set, hfind]
        by_cases hx : name.lexeme = x
        · have : x ∉ c.names := hx ▸ hname
          simp [Construct.innermostView, hx, this]
        · simp [Construct.innermostView, Construct.view, hx]
      dsimp only
      rw [hdeclare]
      refine ⟨?_, by simp [Mention.error?, Mention.breach?, hname], by simp [Mention.noted?]⟩
      change (scope.set name.lexeme false :: outer).map NameMap.find? =
        c.innermostView (some name) :: cs.map Construct.view
      rw [List.map_cons, hview, houter]

/-- A declaration that is complete has added its name to those of the innermost scope. -/
theorem define_meets {c c' : Construct} {name : Token} (h : c'.names = c.names ++ [name.lexeme])
    (cs : List Construct) : Meets (fun w => w.define name) ⟨c :: cs, some name⟩ ⟨c' :: cs, none⟩ [] := by
  intro w hw
  obtain ⟨scope, outer, hscopes, hfind, houter⟩ := matches_cons hw
  have hdefine : w.define name = { w with scopes := scope.set name.lexeme true :: outer } := by
    unfold Walk.define
    rw [hscopes]
  have hview : (scope.set name.lexeme true).find? = c'.view := by
    funext x
    rw [NameMap.find?_set, hfind]
    by_cases hx : name.lexeme = x
    · simp [Construct.view, h, hx]
    · simp [Construct.innermostView, Construct.view, h, hx, Ne.symm hx]
  dsimp only
  rw [hdefine]
  refine ⟨?_, by simp, by simp⟩
  unfold Walk.Matches
  rw [Surroundings.views_none, List.map_cons, List.map_cons, hview, houter]

theorem define_after {s : Stmt} {name : Token} (h : s.declared = [name.lexeme]) (cs : List Construct) :
    Meets (fun w => w.define name) ⟨cs, some name⟩ ⟨Construct.after s cs, none⟩ [] := by
  cases cs with
  | nil =>
    intro w hw
    have hscopes : w.scopes = [] := List.map_eq_nil_iff.1 hw
    have hdefine : w.define name = w := by
      unfold Walk.define
      rw [hscopes]
    dsimp only
    rw [hdefine]
    exact ⟨hw, by simp, by simp⟩
  | cons c cs => exact define_meets (by rw [Construct.names_after, h]) cs

theorem declaration_meets {s : Stmt} {name : Token} (h : s.declared = [name.lexeme]) (cs : List Construct) :
    Meets (fun w => (w.declare name).define name) ⟨cs, none⟩ ⟨Construct.after s cs, none⟩
      [⟨.declaration, name, cs, none⟩] :=
  (declare_meets cs name).quietly (define_after h cs)

/-- Parameters are declared one by one, each after those before it. -/
theorem parameters_meets (routine : Routine) (cs : List Construct) (before ps : List Token) :
    Meets (fun w => ps.foldl (fun w p => (w.declare p).define p) w) ⟨⟨.body routine before, []⟩ :: cs, none⟩
      ⟨⟨.body routine (before ++ ps), []⟩ :: cs, none⟩ (Function.parameterMentions routine cs before ps) := by
  induction ps generalizing before with
  | nil =>
    rw [List.append_nil]
    exact .id _
  | cons p ps ih =>
    have hnames : Construct.names ⟨.body routine (before ++ [p]), []⟩ =
        Construct.names ⟨.body routine before, []⟩ ++ [p.lexeme] := by
      simp [Construct.names, Construct.Form.names]
    have hp := (declare_meets (⟨.body routine before, []⟩ :: cs) p).quietly (define_meets hnames cs)
    have hall := hp.comp (ih (before ++ [p]))
    rw [List.append_assoc] at hall
    exact hall

/-- Which statements have declared the names of a scope is no matter to the walk. -/
theorem views_congr {c c' : Construct} (h : c.names = c'.names) (cs : List Construct) :
    Surroundings.views ⟨c :: cs, none⟩ = Surroundings.views ⟨c' :: cs, none⟩ := by
  have hview : c.view = c'.view := by
    funext name
    rw [Construct.view, Construct.view, h]
  rw [Surroundings.views_none, Surroundings.views_none, List.map_cons, List.map_cons, hview]

theorem views_after_nothing {s : Stmt} (h : s.declared = []) (cs : List Construct) :
    Surroundings.views ⟨cs, none⟩ = Surroundings.views ⟨Construct.after s cs, none⟩ := by
  cases cs with
  | nil => rfl
  | cons c cs => exact views_congr (by rw [Construct.names_after, h, List.append_nil]) cs

theorem views_after_one {s t : Stmt} (h : s.declared = t.declared) (cs : List Construct) :
    Surroundings.views ⟨Construct.after s cs, none⟩ = Surroundings.views ⟨Construct.after t cs, none⟩ := by
  cases cs with
  | nil => rfl
  | cons c cs => exact views_congr (by rw [Construct.names_after, Construct.names_after, h]) cs

theorem views_after_two {s s' t : Stmt} (h : t.declared = s.declared ++ s'.declared) (cs : List Construct) :
    Surroundings.views ⟨Construct.after s' (Construct.after s cs), none⟩ =
      Surroundings.views ⟨Construct.after t cs, none⟩ := by
  cases cs with
  | nil => rfl
  | cons c cs =>
    refine views_congr ?_ cs
    rw [Construct.names_after, Construct.names_after, Construct.names_after, h, List.append_assoc]

theorem thisScope_find : thisScope.find? = Construct.view ⟨.methods, []⟩ := by
  funext name
  unfold thisScope
  rw [NameMap.find?_set]
  by_cases h : "this" = name
  · simp [Construct.view, Construct.names, Construct.Form.names, h]
  · simp [Construct.view, Construct.names, Construct.Form.names, h, Ne.symm h]

mutual

/-- By induction on the statement. The walk tells the constructs around a place by its own scopes, and what stands
before it by their names. -/
theorem stmt_meets (cs : List Construct) :
    (s : Stmt) → Meets (stmt (Construct.place cs) s) ⟨cs, none⟩ ⟨Construct.after s cs, none⟩ (s.mentions cs)
  | .expression value => (expr_meets_inside cs value).congr (views_after_nothing rfl cs)
  | .print value => (expr_meets_inside cs value).congr (views_after_nothing rfl cs)
  | .var name none => declaration_meets (by rw [Stmt.declared]) cs
  | .var name (some value) =>
    ((declare_meets cs name).comp (expr_meets ⟨cs, some name⟩ rfl value)).quietly
      (define_after (s := .var name (some value)) (by rw [Stmt.declared]) cs)
  | .block body => by
    have hbody := stmts_meets (⟨.block, []⟩ :: cs) body
    rw [Construct.afterAll_cons] at hbody
    exact (Meets.inScope (by rfl) hbody).congr (views_after_nothing rfl cs)
  | .branch condition thenBranch none => by
    have h := (expr_meets_inside cs condition).comp (stmt_meets cs thenBranch)
    exact h.congr (views_after_one (by rw [Stmt.declared]) cs)
  | .branch condition thenBranch (some elseBranch) => by
    have helse := stmt_meets (Construct.after thenBranch cs) elseBranch
    rw [Construct.place_after] at helse
    have h := ((expr_meets_inside cs condition).comp (stmt_meets cs thenBranch)).comp helse
    exact h.congr (views_after_two (by rw [Stmt.declared]) cs)
  | .loop condition body => by
    have h := (expr_meets_inside cs condition).comp (stmt_meets cs body)
    exact h.congr (views_after_one (by rw [Stmt.declared]) cs)
  | .break _ => (Meets.id _).congr (views_after_nothing rfl cs)
  | .return keyword none => (checkReturn_meets cs keyword false).congr (views_after_nothing rfl cs)
  | .return keyword (some value) =>
    ((checkReturn_meets cs keyword true).comp (expr_meets_inside cs value)).congr (views_after_nothing rfl cs)
  | .function f => by
    have hf := function_meets .function (Construct.after (.function f) cs) f
    rw [Construct.inClass_after] at hf
    exact (declaration_meets (by rw [Stmt.declared]) cs).comp hf
  | .class name methods => by
    have hmethods := methods_meets (⟨.methods, []⟩ :: Construct.after (.class name methods) cs) rfl methods
    exact (declaration_meets (by rw [Stmt.declared]) cs).comp (Meets.inScope thisScope_find hmethods)

theorem stmts_meets (cs : List Construct) : (ss : List Stmt) →
    Meets (stmts (Construct.place cs) ss) ⟨cs, none⟩ ⟨Construct.afterAll ss cs, none⟩ (Stmt.mentionsAll cs ss)
  | [] => .id _
  | s :: ss => by
    have hss := stmts_meets (Construct.after s cs) ss
    rw [Construct.place_after] at hss
    exact (stmt_meets cs s).comp hss

theorem function_meets (routine : Routine) (cs : List Construct) : (f : Function) →
    Meets (function ⟨routine.body, Construct.inClass cs⟩ f) ⟨cs, none⟩ ⟨cs, none⟩ (f.mentions routine cs)
  | .mk _ parameters body => by
    have hbody := stmts_meets (⟨.body routine parameters, []⟩ :: cs) body
    rw [Construct.afterAll_cons] at hbody
    have h := (parameters_meets routine cs [] parameters).comp hbody
    exact Meets.inScope (by rfl) h

theorem methods_meets (cs : List Construct) (h : Construct.inClass cs = true) : (fs : List Function) →
    Meets (methods fs) ⟨cs, none⟩ ⟨cs, none⟩ (Function.mentionsAll cs fs)
  | [] => .id _
  | f :: fs => by
    have hf := function_meets (.ofMethod f) cs f
    have hplace : (⟨(Routine.ofMethod f).body, Construct.inClass cs⟩ : Place) = methodPlace f := by
      rw [h]
      unfold Routine.ofMethod methodPlace
      split <;> rfl
    rw [hplace] at hf
    exact hf.comp (methods_meets cs h fs)

end

theorem walk_exact (program : List Stmt) :
    (walk program).errors.toList = (Stmt.mentionsAll [] program).filterMap Mention.error? ∧
      (walk program).distances.toList = (Stmt.mentionsAll [] program).filterMap Mention.noted? := by
  obtain ⟨-, he, hd⟩ := stmts_meets [] program .start rfl
  exact ⟨he, hd⟩

/-- What is reported of mentions is one error for each that breaks a rule, with that rule and its own token. -/
theorem forall₂_error? (ms : List Mention) :
    List.Forall₂ (fun m e => (∀ cause, m.Breaks cause ↔ cause = e.cause) ∧ e.token = m.token)
      (ms.filter fun m => ∃ cause, m.Breaks cause) (ms.filterMap Mention.error?) := by
  induction ms with
  | nil => exact .nil
  | cons m ms ih =>
    cases hb : m.breach? with
    | none =>
      have hnot : ¬∃ cause, m.Breaks cause := by
        rintro ⟨cause, h⟩
        rw [← Mention.breach?_iff, hb] at h
        cases h
      rw [List.filter_cons, decide_eq_false hnot, List.filterMap_cons]
      simpa [Mention.error?, hb] using ih
    | some cause =>
      have hiff : ∀ cause', m.Breaks cause' ↔ cause' = cause := by
        intro cause'
        rw [← Mention.breach?_iff, hb, Option.some.injEq, eq_comm]
      have hex : ∃ cause, m.Breaks cause := ⟨cause, (hiff cause).2 rfl⟩
      rw [List.filter_cons, decide_eq_true hex, List.filterMap_cons]
      simpa [Mention.error?, hb] using And.intro hiff ih

/-- A program is accepted if nothing in it breaks a rule. Otherwise its errors are, in order, one for each mention that
breaks a rule, with the one rule that this mention breaks and with its token. -/
theorem ofProgram_reports (program : List Stmt) :
    ((∃ b, ofProgram program = .ok b) ↔ ∀ m ∈ Stmt.mentionsAll [] program, ∀ cause, ¬m.Breaks cause) ∧
    ∀ es, ofProgram program = .error es →
      List.Forall₂ (fun m e => (∀ cause, m.Breaks cause ↔ cause = e.cause) ∧ e.token = m.token)
        ((Stmt.mentionsAll [] program).filter fun m => ∃ cause, m.Breaks cause) es := by
  obtain ⟨herrors, -⟩ := walk_exact program
  have hall := forall₂_error? (Stmt.mentionsAll [] program)
  rw [← herrors] at hall
  constructor
  · rw [exists_ofProgram_iff, ← Array.toList_eq_nil_iff, herrors, List.filterMap_eq_nil_iff]
    refine forall₂_congr fun m _ => ?_
    rw [Mention.error?, Option.map_eq_none_iff, Option.eq_none_iff_forall_ne_some]
    exact forall_congr' fun cause => not_congr (Mention.breach?_iff m cause)
  · intro es h
    rw [ofProgram_eq] at h
    split at h
    · cases h
    · cases h
      exact hall

end Binding

end LoxLang
