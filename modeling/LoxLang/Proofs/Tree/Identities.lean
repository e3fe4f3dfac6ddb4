import LoxLang.Session
import LoxLang.Proofs.Tree.Relabel

namespace LoxLang

variable {line : Nat → Nat} {id id' : OccurrenceId → OccurrenceId}

mutual

/-- Only the identities in a tree matter. -/
theorem Expr.relabel_congr :
    (e : Expr) → (∀ o ∈ e.occurrences, id o.id = id' o.id) → e.relabel line id = e.relabel line id'
  | .literal _, _ => rfl
  | .group inner, h => by
    rw [Expr.relabel, Expr.relabel, inner.relabel_congr h]
  | .unary _ operand, h => by
    rw [Expr.relabel, Expr.relabel, operand.relabel_congr h]
  | .binary left _ right, h => by
    simp only [Expr.occurrences, List.forall_mem_append] at h
    rw [Expr.relabel, Expr.relabel, left.relabel_congr h.1, right.relabel_congr h.2]
  | .logical left _ right, h => by
    simp only [Expr.occurrences, List.forall_mem_append] at h
    rw [Expr.relabel, Expr.relabel, left.relabel_congr h.1, right.relabel_congr h.2]
  | .ternary condition thenBranch elseBranch, h => by
    simp only [Expr.occurrences, List.forall_mem_append] at h
    obtain ⟨⟨hc, ht⟩, he⟩ := h
    rw [Expr.relabel, Expr.relabel, condition.relabel_congr hc, thenBranch.relabel_congr ht,
      elseBranch.relabel_congr he]
  | .variable i name, h => by
    have hi : id i = id' i := h _ List.mem_cons_self
    rw [Expr.relabel, Expr.relabel, hi]
  | .assign i name value, h => by
    simp only [Expr.occurrences, List.forall_mem_cons] at h
    rw [Expr.relabel, Expr.relabel, h.1, value.relabel_congr h.2]
  | .this i keyword, h => by
    have hi : id i = id' i := h _ List.mem_cons_self
    rw [Expr.relabel, Expr.relabel, hi]
  | .call callee _ arguments, h => by
    simp only [Expr.occurrences, List.forall_mem_append] at h
    rw [Expr.relabel, Expr.relabel, callee.relabel_congr h.1, Expr.relabelAll_congr arguments h.2]
  | .get object _, h => by
    rw [Expr.relabel, Expr.relabel, object.relabel_congr h]
  | .set object _ value, h => by
    simp only [Expr.occurrences, List.forall_mem_append] at h
    rw [Expr.relabel, Expr.relabel, object.relabel_congr h.1, value.relabel_congr h.2]

theorem Expr.relabelAll_congr :
    (es : List Expr) → (∀ o ∈ Expr.occurrencesAll es, id o.id = id' o.id) →
      Expr.relabelAll line id es = Expr.relabelAll line id' es
  | [], _ => rfl
  | e :: es, h => by
    simp only [Expr.occurrencesAll, List.forall_mem_append] at h
    rw [Expr.relabelAll, Expr.relabelAll, e.relabel_congr h.1, Expr.relabelAll_congr es h.2]

end

mutual

theorem Stmt.relabel_congr :
    (s : Stmt) → (∀ o ∈ s.occurrences, id o.id = id' o.id) → s.relabel line id = s.relabel line id'
  | .expression value, h => by
    rw [Stmt.relabel, Stmt.relabel, value.relabel_congr h]
  | .print value, h => by
    rw [Stmt.relabel, Stmt.relabel, value.relabel_congr h]
  | .var _ none, _ => rfl
  | .var _ (some value), h => by
    rw [Stmt.relabel, Stmt.relabel, Option.map_some, Option.map_some, value.relabel_congr h]
  | .block body, h => by
    rw [Stmt.relabel, Stmt.relabel, Stmt.relabelAll_congr body h]
  | .branch condition thenBranch none, h => by
    simp only [Stmt.occurrences, List.forall_mem_append] at h
    rw [Stmt.relabel, Stmt.relabel, condition.relabel_congr h.1, thenBranch.relabel_congr h.2]
  | .branch condition thenBranch (some elseBranch), h => by
    simp only [Stmt.occurrences, List.forall_mem_append] at h
    obtain ⟨⟨hc, ht⟩, he⟩ := h
    rw [Stmt.relabel, Stmt.relabel, condition.relabel_congr hc, thenBranch.relabel_congr ht,
      elseBranch.relabel_congr he]
  | .loop condition body, h => by
    simp only [Stmt.occurrences, List.forall_mem_append] at h
    rw [Stmt.relabel, Stmt.relabel, condition.relabel_congr h.1, body.relabel_congr h.2]
  | .break _, _ => rfl
  | .return _ none, _ => rfl
  | .return _ (some value), h => by
    rw [Stmt.relabel, Stmt.relabel, Option.map_some, Option.map_some, value.relabel_congr h]
  | .function f, h => by
    rw [Stmt.relabel, Stmt.relabel, f.relabel_congr h]
  | .class _ methods, h => by
    rw [Stmt.relabel, Stmt.relabel, Function.relabelAll_congr methods h]

theorem Stmt.relabelAll_congr :
    (ss : List Stmt) → (∀ o ∈ Stmt.occurrencesAll ss, id o.id = id' o.id) →
      Stmt.relabelAll line id ss = Stmt.relabelAll line id' ss
  | [], _ => rfl
  | s :: ss, h => by
    simp only [Stmt.occurrencesAll, List.forall_mem_append] at h
    rw [Stmt.relabelAll, Stmt.relabelAll, s.relabel_congr h.1, Stmt.relabelAll_congr ss h.2]

theorem Function.relabel_congr :
    (f : Function) → (∀ o ∈ f.occurrences, id o.id = id' o.id) → f.relabel line id = f.relabel line id'
  | .mk _ _ body, h => by
    rw [Function.relabel, Function.relabel, Stmt.relabelAll_congr body h]

theorem Function.relabelAll_congr :
    (fs : List Function) → (∀ o ∈ Function.occurrencesAll fs, id o.id = id' o.id) →
      Function.relabelAll line id fs = Function.relabelAll line id' fs
  | [], _ => rfl
  | f :: fs, h => by
    simp only [Function.occurrencesAll, List.forall_mem_append] at h
    rw [Function.relabelAll, Function.relabelAll, f.relabel_congr h.1, Function.relabelAll_congr fs h.2]

end

mutual

/-- The text of a tree tells neither lines nor identities. -/
theorem Expr.render_relabel : (e : Expr) → (e.relabel line id).render = e.render
  | .literal _ => rfl
  | .group inner => by rw [Expr.relabel, Expr.render, Expr.render, inner.render_relabel]
  | .unary _ operand => by
    rw [Expr.relabel, Expr.render, Expr.render, operand.render_relabel, Token.relined_lexeme]
  | .binary left _ right => by
    rw [Expr.relabel, Expr.render, Expr.render, left.render_relabel, right.render_relabel, Token.relined_lexeme]
  | .logical left _ right => by
    rw [Expr.relabel, Expr.render, Expr.render, left.render_relabel, right.render_relabel, Token.relined_lexeme]
  | .ternary condition thenBranch elseBranch => by
    rw [Expr.relabel, Expr.render, Expr.render, condition.render_relabel, thenBranch.render_relabel,
      elseBranch.render_relabel]
  | .variable _ _ => rfl
  | .assign _ _ value => by rw [Expr.relabel, Expr.render, Expr.render, value.render_relabel, Token.relined_lexeme]
  | .this _ _ => rfl
  | .call callee _ arguments => by
    rw [Expr.relabel, Expr.render, Expr.render, callee.render_relabel, Expr.renderAll_relabel arguments]
  | .get object _ => by rw [Expr.relabel, Expr.render, Expr.render, object.render_relabel, Token.relined_lexeme]
  | .set object _ value => by
    rw [Expr.relabel, Expr.render, Expr.render, object.render_relabel, value.render_relabel, Token.relined_lexeme]

theorem Expr.renderAll_relabel :
    (es : List Expr) → Expr.renderAll (Expr.relabelAll line id es) = Expr.renderAll es
  | [] => rfl
  | e :: es => by
    rw [Expr.relabelAll, Expr.renderAll, Expr.renderAll, e.render_relabel, Expr.renderAll_relabel es]

end

mutual

theorem Stmt.render_relabel : (s : Stmt) → (s.relabel line id).render = s.render
  | .expression value => by rw [Stmt.relabel, Stmt.render, Stmt.render, value.render_relabel]
  | .print value => by rw [Stmt.relabel, Stmt.render, Stmt.render, value.render_relabel]
  | .var _ none => rfl
  | .var _ (some value) => by
    rw [Stmt.relabel, Option.map_some, Stmt.render, Stmt.render, value.render_relabel, Token.relined_lexeme]
  | .block body => by rw [Stmt.relabel, Stmt.render, Stmt.render, Stmt.renderAll_relabel body]
  | .branch condition thenBranch none => by
    rw [Stmt.relabel, Stmt.render, Stmt.render, condition.render_relabel, thenBranch.render_relabel]
  | .branch condition thenBranch (some elseBranch) => by
    rw [Stmt.relabel, Stmt.render, Stmt.render, condition.render_relabel, thenBranch.render_relabel,
      elseBranch.render_relabel]
  | .loop condition body => by
    rw [Stmt.relabel, Stmt.render, Stmt.render, condition.render_relabel, body.render_relabel]
  | .break _ => rfl
  | .return _ none => rfl
  | .return _ (some value) => by
    rw [Stmt.relabel, Option.map_some, Stmt.render, Stmt.render, value.render_relabel]
  | .function f => by rw [Stmt.relabel, Stmt.render, Stmt.render, f.render_relabel]
  | .class _ methods => by
    rw [Stmt.relabel, Stmt.render, Stmt.render, Function.renderAll_relabel methods, Token.relined_lexeme]

theorem Stmt.renderAll_relabel :
    (ss : List Stmt) → Stmt.renderAll (Stmt.relabelAll line id ss) = Stmt.renderAll ss
  | [] => rfl
  | s :: ss => by
    rw [Stmt.relabelAll, Stmt.renderAll, Stmt.renderAll, s.render_relabel, Stmt.renderAll_relabel ss]

theorem Function.render_relabel (head : String) : (f : Function) → (f.relabel line id).render head = f.render head
  | .mk name parameters body => by
    rw [Function.relabel, Function.render, Function.render, Stmt.renderAll_relabel body, List.map_map]
    rfl

theorem Function.renderAll_relabel :
    (fs : List Function) → Function.renderAll (Function.relabelAll line id fs) = Function.renderAll fs
  | [] => rfl
  | f :: fs => by
    rw [Function.relabelAll, Function.renderAll, Function.renderAll, f.render_relabel,
      Function.renderAll_relabel fs]

end

theorem Stmt.relabelAll_eq_map (line : Nat → Nat) (id : OccurrenceId → OccurrenceId) (ss : List Stmt) :
    Stmt.relabelAll line id ss = ss.map (Stmt.relabel line id) := by
  induction ss with
  | nil => rfl
  | cons s ss ih => rw [Stmt.relabelAll, List.map_cons, ih]

theorem Stmt.echoed_relabel (s : Stmt) : (s.relabel line id).echoed = s.echoed.relabel line id := by
  cases s with
  | branch condition thenBranch elseBranch => cases elseBranch <;> rfl
  | _ => rfl

theorem Stmt.map_echoed_relabelAll (ss : List Stmt) :
    (Stmt.relabelAll line id ss).map Stmt.echoed = Stmt.relabelAll line id (ss.map Stmt.echoed) := by
  rw [relabelAll_eq_map, relabelAll_eq_map, List.map_map, List.map_map]
  exact List.map_congr_left fun s _ => s.echoed_relabel

theorem Stmt.map_render_relabelAll (ss : List Stmt) :
    (Stmt.relabelAll line id ss).map Stmt.render = ss.map Stmt.render := by
  rw [relabelAll_eq_map, List.map_map]
  exact List.map_congr_left fun s _ => s.render_relabel

end LoxLang
