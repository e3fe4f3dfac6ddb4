import LoxLang.Proofs.Scope.Seam

namespace LoxLang.Binding

/-- All that is noted is about occurrences of the kind told. -/
structure Walk.Only (p : OccurrenceId → Prop) (w : Walk) : Prop where
  distances : ∀ e ∈ w.distances.toList, p e.1
  topLevel : ∀ id ∈ w.topLevel.toList, p id

namespace Walk.Only

variable {p : OccurrenceId → Prop} {w : Walk}

theorem start (p : OccurrenceId → Prop) : Walk.start.Only p := ⟨by simp [Walk.start], by simp [Walk.start]⟩

theorem report (h : w.Only p) (cause : BindingError.Cause) (token : Token) : (w.report cause token).Only p :=
  ⟨h.distances, h.topLevel⟩

theorem declare (h : w.Only p) (name : Token) : (w.declare name).Only p := by
  unfold Walk.declare
  split
  · exact h
  · split
    · exact h.report _ _
    · exact ⟨h.distances, h.topLevel⟩

theorem define (h : w.Only p) (name : Token) : (w.define name).Only p := by
  unfold Walk.define
  split
  · exact h
  · exact ⟨h.distances, h.topLevel⟩

/-- A scope of its own changes nothing in what may be noted inside. -/
theorem inScope {inner : Walk → Walk} (h : w.Only p) (scope : Scope) (hi : ∀ w : Walk, w.Only p → (inner w).Only p) :
    (w.inScope scope inner).Only p := by
  have hin : (inner { w with scopes := scope :: w.scopes }).Only p := hi _ ⟨h.distances, h.topLevel⟩
  exact ⟨hin.distances, hin.topLevel⟩

theorem note (h : w.Only p) (place : Place) {id : OccurrenceId} (hid : p id) (name : Token) :
    (w.note place id name).Only p := by
  have hpush : ∀ d, ∀ e ∈ (w.distances.push (id, d)).toList, p e.1 := by
    intro d e he
    rw [Array.toList_push, List.mem_append, List.mem_singleton] at he
    rcases he with he | rfl
    · exact h.distances e he
    · exact hid
  have hpush' : ∀ i ∈ (w.topLevel.push id).toList, p i := by
    intro i hi
    rw [Array.toList_push, List.mem_append, List.mem_singleton] at hi
    rcases hi with hi | rfl
    · exact h.topLevel i hi
    · exact hid
  unfold Walk.note
  split
  · exact h
  · next d _ =>
    dsimp only
    split
    · exact ⟨hpush d, hpush'⟩
    · exact ⟨hpush d, h.topLevel⟩

theorem checkReturn (h : w.Only p) (place : Place) (keyword : Token) (hasValue : Bool) :
    (Binding.checkReturn place keyword hasValue w).Only p := by
  unfold Binding.checkReturn
  dsimp only
  split <;> split <;> first | exact h | exact h.report _ _ | exact (h.report _ _).report _ _

theorem parameters (h : w.Only p) (ps : List Token) :
    (ps.foldl (fun w t => (w.declare t).define t) w).Only p := by
  induction ps generalizing w with
  | nil => exact h
  | cons t ps ih => exact ih ((h.declare t).define t)

end Walk.Only

variable {p : OccurrenceId → Prop}

mutual

theorem expr_only (place : Place) : (e : Expr) → (∀ o ∈ e.occurrences, p o.id) → ∀ w : Walk, w.Only p →
    (expr place e w).Only p
  | .literal _, _, _, h => h
  | .group inner, hp, w, h => expr_only place inner hp w h
  | .unary _ operand, hp, w, h => expr_only place operand hp w h
  | .binary left _ right, hp, w, h | .logical left _ right, hp, w, h => by
    have hl := expr_only place left (fun o ho => hp o (List.mem_append_left _ ho)) w h
    exact expr_only place right (fun o ho => hp o (List.mem_append_right _ ho)) _ hl
  | .ternary condition thenBranch elseBranch, hp, w, h => by
    have hc := expr_only place condition (fun o ho => hp o (by simp [Expr.occurrences, ho])) w h
    have ht := expr_only place thenBranch (fun o ho => hp o (by simp [Expr.occurrences, ho])) _ hc
    exact expr_only place elseBranch (fun o ho => hp o (by simp [Expr.occurrences, ho])) _ ht
  | .variable id name, hp, w, h => by
    have hid : p id := hp ⟨.variable, id, name⟩ List.mem_cons_self
    simp only [expr]
    split
    · exact (h.report _ _).note place hid name
    · exact h.note place hid name
  | .assign id name value, hp, w, h => by
    have hv := expr_only place value (fun o ho => hp o (List.mem_cons_of_mem _ ho)) w h
    exact hv.note place (hp ⟨.assign, id, name⟩ List.mem_cons_self) name
  | .this id keyword, hp, w, h => by
    simp only [expr]
    split
    · exact h.note place (hp ⟨.this, id, keyword⟩ List.mem_cons_self) keyword
    · exact h.report _ _
  | .call callee _ arguments, hp, w, h => by
    have hc := expr_only place callee (fun o ho => hp o (List.mem_append_left _ ho)) w h
    exact exprs_only place arguments (fun o ho => hp o (List.mem_append_right _ ho)) _ hc
  | .get object _, hp, w, h => expr_only place object hp w h
  | .set object _ value, hp, w, h => by
    have hv := expr_only place value (fun o ho => hp o (List.mem_append_right _ ho)) w h
    exact expr_only place object (fun o ho => hp o (List.mem_append_left _ ho)) _ hv

theorem exprs_only (place : Place) : (es : List Expr) → (∀ o ∈ Expr.occurrencesAll es, p o.id) → ∀ w : Walk, w.Only p →
    (exprs place es w).Only p
  | [], _, _, h => h
  | e :: es, hp, w, h => by
    have he := expr_only place e (fun o ho => hp o (List.mem_append_left _ ho)) w h
    exact exprs_only place es (fun o ho => hp o (List.mem_append_right _ ho)) _ he

end

mutual

/-- By induction on the tree: each part notes its own occurrences. -/
theorem stmt_only (place : Place) : (s : Stmt) → (∀ o ∈ s.occurrences, p o.id) → ∀ w : Walk, w.Only p →
    (stmt place s w).Only p
  | .expression value, hp, w, h | .print value, hp, w, h => expr_only place value hp w h
  | .var name none, _, w, h => (h.declare name).define name
  | .var name (some value), hp, w, h => (expr_only place value hp _ (h.declare name)).define name
  | .block body, hp, w, h => h.inScope .empty (stmts_only place body hp)
  | .branch condition thenBranch none, hp, w, h => by
    have hc := expr_only place condition (fun o ho => hp o (List.mem_append_left _ ho)) w h
    exact stmt_only place thenBranch (fun o ho => hp o (List.mem_append_right _ ho)) _ hc
  | .branch condition thenBranch (some elseBranch), hp, w, h => by
    have hc := expr_only place condition (fun o ho => hp o (by simp [Stmt.occurrences, ho])) w h
    have ht := stmt_only place thenBranch (fun o ho => hp o (by simp [Stmt.occurrences, ho])) _ hc
    exact stmt_only place elseBranch (fun o ho => hp o (by simp [Stmt.occurrences, ho])) _ ht
  | .loop condition body, hp, w, h => by
    have hc := expr_only place condition (fun o ho => hp o (List.mem_append_left _ ho)) w h
    exact stmt_only place body (fun o ho => hp o (List.mem_append_right _ ho)) _ hc
  | .break _, _, _, h => h
  | .return keyword none, _, w, h => h.checkReturn place keyword false
  | .return keyword (some value), hp, w, h => expr_only place value hp _ (h.checkReturn place keyword true)
  | .function f, hp, w, h => function_only ⟨.function, place.inClass⟩ f hp _ ((h.declare f.name).define f.name)
  | .class name fs, hp, w, h => ((h.declare name).define name).inScope thisScope (methods_only fs hp)

theorem stmts_only (place : Place) : (ss : List Stmt) → (∀ o ∈ Stmt.occurrencesAll ss, p o.id) → ∀ w : Walk, w.Only p →
    (stmts place ss w).Only p
  | [], _, _, h => h
  | s :: ss, hp, w, h => by
    have hs := stmt_only place s (fun o ho => hp o (List.mem_append_left _ ho)) w h
    exact stmts_only place ss (fun o ho => hp o (List.mem_append_right _ ho)) _ hs

theorem function_only (place : Place) : (f : Function) → (∀ o ∈ f.occurrences, p o.id) → ∀ w : Walk, w.Only p →
    (function place f w).Only p
  | .mk _ parameters body, hp, _, h => h.inScope .empty fun _ h => stmts_only place body hp _ (h.parameters parameters)

theorem methods_only : (fs : List Function) → (∀ o ∈ Function.occurrencesAll fs, p o.id) → ∀ w : Walk, w.Only p →
    (methods fs w).Only p
  | [], _, _, h => h
  | f :: fs, hp, w, h => by
    have hf := function_only (methodPlace f) f (fun o ho => hp o (List.mem_append_left _ ho)) w h
    exact methods_only fs (fun o ho => hp o (List.mem_append_right _ ho)) _ hf

end

/-- All that the walk notes, whether or not it reports anything, is about occurrences that the program has. -/
theorem walk_only {program : List Stmt} (hp : ∀ o ∈ Stmt.occurrencesAll program, p o.id) : (walk program).Only p :=
  stmts_only _ program hp .start (.start p)

end LoxLang.Binding
