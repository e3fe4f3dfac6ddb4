import Mathlib.Data.List.Nodup
import LoxLang.Proofs.Scope.Alike
import LoxLang.Proofs.Scope.Locals
import LoxLang.Proofs.Scope.Sites

namespace LoxLang
open Scoping

/-- The name that a statement declares in the scope around it. -/
def Stmt.declared? : Stmt → Option String
  | .var name _ => some name.lexeme
  | .function f => some f.name.lexeme
  | .class name _ => some name.lexeme
  | _ => none

theorem Stmt.declared?_of_varName? {s : Stmt} {x : String} (h : s.varName? = some x) : s.declared? = some x := by
  cases s <;> first | exact h | cases h

theorem Stmt.declared?_of_not_declaration {s : Stmt} (h : s.isDeclaration = false) : s.declared? = none := by
  cases s <;> first | rfl | cases h

namespace Scoping.Context

variable {c : Context} {frame : Frame} {frames : List Frame} {s t : Stmt} {ss : List Stmt} {x : String}

/-- A frame that goes on another one. -/
def Extends (frame frame' : Frame) : Prop := ∀ x, frame'.lookup x = none → frame.lookup x = none

/-- A declaration adds its name to the innermost frame, and takes none away. -/
theorem after_declaration (name : Token) (form : Form) (hc : c.frames = frame :: frames)
    (ha : c.after s = c.declare name form) (hs : s.declared? = some name.lexeme) :
    ∃ frame', (c.after s).frames = frame' :: frames ∧ Extends frame frame' ∧
      ∀ x, s.declared? = some x → frame'.lookup x ≠ none := by
  refine ⟨frame ++ [(name.lexeme, form)], by simp [ha, declare, hc], fun x hx => ?_, fun x hx => ?_⟩
  · rw [List.lookup_append, Option.or_eq_none_iff] at hx
    exact hx.1
  · cases hs.symm.trans hx
    rw [List.lookup_append]
    cases frame.lookup name.lexeme <;> simp

/-- The frame of a scope after a statement in it. -/
theorem after_frames (hc : c.frames = frame :: frames) (s : Stmt) :
    ∃ frame', (c.after s).frames = frame' :: frames ∧ Extends frame frame' ∧
      ∀ x, s.declared? = some x → frame'.lookup x ≠ none := by
  cases s with
  | var name initializer =>
    cases initializer with
    | none => exact after_declaration name .bare hc rfl rfl
    | some value => exact after_declaration name .initialized hc rfl rfl
  | function f => exact after_declaration f.name .function hc rfl rfl
  | «class» name methods => exact after_declaration name .class hc rfl rfl
  | _ => exact ⟨frame, hc, fun _ h => h, by simp [Stmt.declared?]⟩

theorem fresh_of_tidy (hs : s.Tidy c) (hx : s.declared? = some x) : c.Fresh x := by
  cases s with
  | var name initializer =>
    cases hx
    exact hs
  | function f =>
    cases hx
    exact hs.1
  | «class» name methods =>
    cases hx
    exact hs.1
  | _ => cases hx

/-- What is declared in a scope has not been there before. -/
theorem not_in_frame (hc : c.frames = frame :: frames) (h : Stmt.TidyAll c ss) (hs : s ∈ ss)
    (hx : s.declared? = some x) : frame.lookup x = none := by
  induction ss generalizing c frame with
  | nil => cases hs
  | cons t ts ih =>
    rcases List.mem_cons.1 hs with rfl | hs
    · exact fresh_of_tidy h.1 hx frame (by simp [hc])
    · obtain ⟨frame', hc', hmore, -⟩ := after_frames hc t
      exact hmore x (ih hc' h.2 hs)

/-- Nor is it a parameter. -/
theorem not_parameter {parameters : List Token}
    (hc : c.frames = (parameters.map fun p => (p.lexeme, Form.parameter)) :: frames) (h : Stmt.TidyAll c ss)
    (hs : s ∈ ss) (hx : s.declared? = some x) : x ∉ parameters.map Token.lexeme := by
  intro hp
  obtain ⟨q, hq, rfl⟩ := List.mem_map.1 hp
  have hnone := not_in_frame hc h hs hx
  rw [List.lookup_eq_none_iff] at hnone
  have hne := hnone (q.lexeme, .parameter) (List.mem_map.2 ⟨q, hq, rfl⟩)
  simp at hne

/-- Two statements of a scope that declare the same name are the same one. -/
theorem declaration_unique (hc : c.frames = frame :: frames) (h : Stmt.TidyAll c ss) (hs : s ∈ ss) (ht : t ∈ ss)
    (hx : s.declared? = some x) (hy : t.declared? = some x) : s = t := by
  induction ss generalizing c frame with
  | nil => cases hs
  | cons u us ih =>
    obtain ⟨frame', hc', -, hnew⟩ := after_frames hc u
    -- of two statements the later one would declare what is in the frame already
    rcases List.mem_cons.1 hs with rfl | hs'
    · rcases List.mem_cons.1 ht with rfl | ht'
      · rfl
      · exact absurd (not_in_frame hc' h.2 ht' hy) (hnew x hx)
    · rcases List.mem_cons.1 ht with rfl | ht'
      · exact absurd (not_in_frame hc' h.2 hs' hx) (hnew x hy)
      · exact ih hc' h.2 hs' ht'

end Scoping.Context

theorem Local.name_mem_of_mem_ofScope {u : Local} {p : Way} {parameters : List Token} {body : List Stmt}
    (h : u ∈ Local.ofScope p parameters body) :
    u.name ∈ parameters.map Token.lexeme ∨ ∃ s ∈ body, s.varName? = some u.name := by
  obtain ⟨x, hx, rfl⟩ := List.mem_map.1 h
  exact (List.mem_append.1 hx).imp_right List.mem_filterMap.1

/-- In the scope of a local, no function and no class has its name. -/
theorem Local.only_variable {u : Local} {p : Way} {parameters : List Token} {body : List Stmt} {c : Context}
    {frames : List Frame} (hu : u ∈ Local.ofScope p parameters body)
    (hc : c.frames = (parameters.map fun p => (p.lexeme, Form.parameter)) :: frames) (h : Stmt.TidyAll c body)
    {s : Stmt} (hs : s ∈ body) (hx : s.declared? = some u.name) : s.varName? ≠ none := by
  rcases name_mem_of_mem_ofScope hu with hp | ⟨t, ht, hv⟩
  · exact absurd hp (Context.not_parameter hc h hs hx)
  · rw [Context.declaration_unique hc h hs ht hx (Stmt.declared?_of_varName? hv), hv]
    exact Option.some_ne_none _

namespace Scoping.Context

variable {c : Context} {frame : Frame} {frames : List Frame} {ss : List Stmt}

theorem variables_nodup (hc : c.frames = frame :: frames) (h : Stmt.TidyAll c ss) :
    (ss.filterMap Stmt.varName?).Nodup := by
  induction ss generalizing c frame with
  | nil => exact List.nodup_nil
  | cons s ss ih =>
    obtain ⟨frame', hc', -, hnew⟩ := after_frames hc s
    have hrest := ih hc' h.2
    rw [List.filterMap_cons]
    cases hv : s.varName? with
    | none => exact hrest
    | some x =>
      refine List.nodup_cons.2 ⟨fun hx => ?_, hrest⟩
      obtain ⟨t, ht, hx⟩ := List.mem_filterMap.1 hx
      have hin := not_in_frame hc' h.2 ht (Stmt.declared?_of_varName? hx)
      exact hnew x (Stmt.declared?_of_varName? hv) hin

end Scoping.Context

theorem Local.ofScope_nodup {p : Way} {parameters : List Token} {body : List Stmt} {c : Context} {frames : List Frame}
    (hc : c.frames = (parameters.map fun p => (p.lexeme, Form.parameter)) :: frames)
    (hparameters : (parameters.map Token.lexeme).Nodup) (h : Stmt.TidyAll c body) :
    (Local.ofScope p parameters body).Nodup := by
  refine List.Nodup.map (fun x y he => congrArg Local.name he) ?_
  refine List.nodup_append.2 ⟨hparameters, Context.variables_nodup hc h, fun x hx y hy he => ?_⟩
  obtain ⟨s, hs, hsy⟩ := List.mem_filterMap.1 hy
  exact Context.not_parameter hc h hs (Stmt.declared?_of_varName? hsy) (he ▸ hx)

/-- The locals of a scope, and those further down. -/
theorem Local.nodup_append {p : Way} {parameters : List Token} {body : List Stmt}
    (h : (Local.ofScope p parameters body).Nodup) (hbody : (Stmt.localsAll p 0 body).Nodup) :
    (Local.ofScope p parameters body ++ Stmt.localsAll p 0 body).Nodup := by
  refine List.nodup_append.2 ⟨h, hbody, fun u hu v hv he => ?_⟩
  obtain ⟨k, -, hk⟩ := Stmt.suffix_scopeAll p 0 body v hv
  rw [← he, Local.scope_of_mem_ofScope hu] at hk
  have hlength := hk.length_le
  rw [List.length_cons] at hlength
  omega

mutual

/-- Each local of a program in which no scope gets a name twice is one declaration. -/
theorem Stmt.locals_nodup (c : Context) :
    (p : Way) → (s : Stmt) → s.Tidy c → (s.locals p).Nodup
  | p, .block body, h =>
    Local.nodup_append (Local.ofScope_nodup (c := c.inside []) rfl List.nodup_nil h)
      (Stmt.localsAll_nodup (c.inside []) p 0 body h)
  | p, .branch _ thenBranch none, h => Stmt.locals_nodup c (0 :: p) thenBranch h
  | p, .branch _ thenBranch (some elseBranch), h => by
    refine List.nodup_append.2 ⟨Stmt.locals_nodup c (0 :: p) thenBranch h.1,
      Stmt.locals_nodup c (1 :: p) elseBranch h.2, fun u hu v hv he => ?_⟩
    have hthen := Stmt.suffix_scope (0 :: p) thenBranch u hu
    have helse := Stmt.suffix_scope (1 :: p) elseBranch v hv
    rw [he] at hthen
    cases Way.eq_of_suffix hthen helse
  | p, .loop _ body, h => Stmt.locals_nodup c (0 :: p) body h
  | p, .function f, h => Function.locals_nodup _ p _ f h.2
  | p, .class _ methods, h => Function.localsAll_nodup _ p 0 methods h.2
  | _, .expression _, _ | _, .print _, _ | _, .var _ _, _ | _, .break _, _ | _, .return _ _, _ => List.nodup_nil

theorem Stmt.localsAll_nodup (c : Context) :
    (p : Way) → (n : Nat) → (ss : List Stmt) → Stmt.TidyAll c ss → (Stmt.localsAll p n ss).Nodup
  | _, _, [], _ => List.nodup_nil
  | p, n, s :: ss, h => by
    refine List.nodup_append.2 ⟨Stmt.locals_nodup c (n :: p) s h.1,
      Stmt.localsAll_nodup (c.after s) p (n + 1) ss h.2, fun u hu v hv he => ?_⟩
    have hfirst := Stmt.suffix_scope (n :: p) s u hu
    obtain ⟨k, hle, hk⟩ := Stmt.suffix_scopeAll p (n + 1) ss v hv
    rw [he] at hfirst
    have hn := Way.eq_of_suffix hfirst hk
    omega

theorem Function.locals_nodup (c : Context) :
    (p : Way) → (place : Binding.Place) → (f : Function) → f.Tidy place c → (f.locals p).Nodup
  | p, place, .mk _ parameters body, h =>
    Local.nodup_append (Local.ofScope_nodup (c := c.inBody place parameters) rfl h.1 h.2)
      (Stmt.localsAll_nodup (c.inBody place parameters) p 0 body h.2)

theorem Function.localsAll_nodup (c : Context) :
    (p : Way) → (n : Nat) → (fs : List Function) → Function.TidyAll c fs → (Function.localsAll p n fs).Nodup
  | _, _, [], _ => List.nodup_nil
  | p, n, f :: fs, h => by
    refine List.nodup_append.2 ⟨Function.locals_nodup c (n :: p) _ f h.1,
      Function.localsAll_nodup c p (n + 1) fs h.2, fun u hu v hv he => ?_⟩
    have hfirst := Function.suffix_scope (n :: p) f u hu
    obtain ⟨k, hle, hk⟩ := Function.suffix_scopeAll p (n + 1) fs v hv
    rw [he] at hfirst
    have hn := Way.eq_of_suffix hfirst hk
    omega

end

namespace Renaming

variable (r : Renaming)

/-- The names of a scope, one to one: in the scope of the target, its name and the new one change places. -/
def spelling (isTarget : Bool) : Equiv.Perm String := if isTarget then .swap r.target.name r.name else .refl _

theorem spelling_this (hold : r.target.name ≠ "this") (hnew : r.name ≠ "this") (isTarget : Bool) :
    r.spelling isTarget "this" = "this" := by
  unfold spelling
  split
  · exact Equiv.swap_apply_of_ne_of_ne hold.symm hnew.symm
  · rfl

def agreement (hold : r.target.name ≠ "this") (hnew : r.name ≠ "this") : Agreement where
  distance? := r.distance?
  Allowed := fun κ => ∃ isTarget, κ = r.spelling isTarget
  this_eq := by
    intro κ hκ
    obtain ⟨isTarget, rfl⟩ := hκ
    exact r.spelling_this hold hnew isTarget

variable {r}

/-- The token has not the new name. -/
def Old (r : Renaming) (t : Token) : Prop := t.lexeme ≠ r.name

theorem spelling_eq {x : String} (hx : x ≠ r.name) (isTarget : Bool) : r.spelling isTarget x = r.here isTarget x := by
  unfold spelling here
  cases isTarget with
  | false => rfl
  | true =>
    by_cases hold : x = r.target.name
    · simp [hold]
    · simp [hold, Equiv.swap_apply_of_ne_of_ne hold hx]

/-- Where the new name has not been, to change places with it is to be renamed. -/
theorem here_eq {x : String} (hx : x ≠ r.name) (scopes : List Bool) :
    Spelling.here (scopes.map r.spelling) x = r.here (scopes.headD false) x := by
  rw [← spelling_eq hx]
  cases scopes <;> rfl

/-- An occurrence is renamed if the scope that it is bound to is that of the target. -/
theorem outward_eq {x : String} (hx : x ≠ r.name) (scopes : List Bool) (i : OccurrenceId) :
    Spelling.outward (scopes.map r.spelling) (r.distance? i) x = r.occurrence scopes i x := by
  unfold Spelling.outward occurrence
  cases r.distance? i with
  | none => rfl
  | some d =>
    have hd : (scopes.map r.spelling).getD d (.refl _) = r.spelling (scopes.getD d false) := by
      rw [List.getD_eq_getElem?_getD, List.getD_eq_getElem?_getD, List.getElem?_map]
      cases scopes[d]? <;> rfl
    dsimp only
    rw [hd, spelling_eq hx]

/-- A function or class in the scope of the target has another name than it. -/
def Apart (r : Renaming) (scopes : List Bool) (s : Stmt) : Prop :=
  scopes.headD false = true → s.declared? = some r.target.name → s.varName? ≠ none

theorem apart_of_not_declaration {scopes : List Bool} {s : Stmt} (h : s.isDeclaration = false) : r.Apart scopes s := by
  intro _ hs
  rw [Stmt.declared?_of_not_declaration h] at hs
  cases hs

/-- The target has its name to itself, so no function or class of its scope has it. -/
theorem apart_of_tidy {p : Way} {parameters : List Token} {body : List Stmt} {c : Context} {frames : List Frame}
    (scopes : List Bool) (hc : c.frames = (parameters.map fun p => (p.lexeme, Form.parameter)) :: frames)
    (h : Stmt.TidyAll c body) : ∀ s ∈ body, r.Apart (r.isScope p parameters body :: scopes) s :=
  fun _ hs hm hx => Local.only_variable (of_decide_eq_true hm) hc h hs hx

/-- So its name stays. -/
theorem name_stays {scopes : List Bool} {s : Stmt} {name : Token} (ha : r.Apart scopes s)
    (hs : s.declared? = some name.lexeme) (hv : s.varName? = none) (hn : r.Old name) :
    Spelling.here (scopes.map r.spelling) name.lexeme = name.lexeme := by
  rw [here_eq hn]
  unfold here
  split
  · next h => exact absurd hv (ha h.1 (h.2 ▸ hs))
  · rfl

section

variable (hold : r.target.name ≠ "this") (hnew : r.name ≠ "this")

theorem expr_eq (scopes : List Bool) {e : Expr} (he : e.Named r.Old) :
    (r.agreement hold hnew).expr (scopes.map r.spelling) e = r.expr scopes e :=
  e.renamed_congr (fun i => outward_eq hnew.symm scopes i) (fun _ ht i => outward_eq ht scopes i) he

theorem initializer_eq (scopes : List Bool) {initializer : Option Expr} (h : ∀ e ∈ initializer, e.Named r.Old) :
    initializer.map ((r.agreement hold hnew).expr (scopes.map r.spelling)) = initializer.map (r.expr scopes) := by
  cases initializer with
  | none => rfl
  | some e => exact congrArg some (expr_eq hold hnew scopes (h e rfl))

mutual

/-- By induction on the statement, with its place in the program told by the way to it. -/
theorem stmt_alike (c : Context) (scopes : List Bool) :
    (p : Way) → (s : Stmt) → s.Formed → s.Tidy c → s.Named r.Old → r.Apart scopes s →
      AlikeStmt (r.agreement hold hnew) (scopes.map r.spelling) s (r.stmt p scopes s)
  | p, .expression value, _, _, hn, _ => by
    rw [stmt, ← expr_eq hold hnew scopes hn]
    exact .expression _ value
  | p, .print value, _, _, hn, _ => by
    rw [stmt, ← expr_eq hold hnew scopes hn]
    exact .print _ value
  | p, .var name initializer, _, _, hn, _ => by
    have hname : r.Old name := by
      cases initializer with
      | none => exact hn
      | some value => exact hn.1
    have hvalue : ∀ e ∈ initializer, e.Named r.Old := by
      rintro e rfl
      exact hn.2
    rw [stmt, ← initializer_eq hold hnew scopes hvalue,
      ← Token.renamed_congr (here_eq hname scopes)]
    exact .var _ name initializer
  | p, .block body, hf, ht, hn, _ => by
    rw [stmt]
    have hbody := stmts_alike (c.inside []) (r.isScope p [] body :: scopes) p 0 body hf ht hn
      (apart_of_tidy scopes rfl ht)
    exact .block ⟨_, rfl⟩ hbody
  | p, .branch condition yes none, hf, ht, hn, _ => by
    rw [stmt, ← expr_eq hold hnew scopes hn.1]
    exact .branch condition
      (stmt_alike c scopes (0 :: p) yes hf.2 ht hn.2 (apart_of_not_declaration hf.1))
  | p, .branch condition yes (some no), hf, ht, hn, _ => by
    rw [stmt, ← expr_eq hold hnew scopes hn.1.1]
    exact .branchElse condition
      (stmt_alike c scopes (0 :: p) yes hf.1.2 ht.1 hn.1.2 (apart_of_not_declaration hf.1.1))
      (stmt_alike c scopes (1 :: p) no hf.2.2 ht.2 hn.2 (apart_of_not_declaration hf.2.1))
  | p, .loop condition body, hf, ht, hn, _ => by
    rw [stmt, ← expr_eq hold hnew scopes hn.1]
    exact .loop condition
      (stmt_alike c scopes (0 :: p) body hf.2 ht hn.2 (apart_of_not_declaration hf.1))
  | p, .break keyword, _, _, _, _ => .break _ keyword
  | p, .return keyword value, _, _, hn, _ => by
    have hvalue : ∀ e ∈ value, e.Named r.Old := by
      rintro e rfl
      exact hn
    rw [stmt, ← initializer_eq hold hnew scopes hvalue]
    exact .return _ keyword value
  | p, .function f, hf, ht, hn, ha => by
    have hname : r.Old f.name := by
      cases f
      exact hn.1
    exact .function (name_stays ha rfl rfl hname) (function_alike _ scopes p _ f hf ht.2 hn)
  | p, .class name methods, hf, ht, hn, ha =>
    .class (name_stays ha rfl rfl hn.1) (functions_alike _ (false :: scopes) p 0 methods hf ht.2 hn.2)

theorem stmts_alike (c : Context) (scopes : List Bool) :
    (p : Way) → (n : Nat) → (ss : List Stmt) → Stmt.FormedAll ss → Stmt.TidyAll c ss → Stmt.NamedAll r.Old ss →
      (∀ s ∈ ss, r.Apart scopes s) →
      AlikeStmts (r.agreement hold hnew) (scopes.map r.spelling) ss (r.stmts p n scopes ss)
  | _, _, [], _, _, _, _ => .nil _
  | p, n, s :: ss, hf, ht, hn, ha =>
    .cons (stmt_alike c scopes (n :: p) s hf.1 ht.1 hn.1 (ha s List.mem_cons_self))
      (stmts_alike (c.after s) scopes p (n + 1) ss hf.2 ht.2 hn.2 fun t ht => ha t (List.mem_cons_of_mem s ht))

theorem function_alike (c : Context) (scopes : List Bool) :
    (p : Way) → (place : Binding.Place) → (f : Function) → f.Formed → f.Tidy place c → f.Named r.Old →
      AlikeFunction (r.agreement hold hnew) (scopes.map r.spelling) f (r.function p scopes f)
  | p, place, .mk name parameters body, hf, ht, hn => by
    have hbody := stmts_alike (c.inBody place parameters) (r.isScope p parameters body :: scopes) p 0 body hf ht.2
      hn.2.2 (apart_of_tidy scopes rfl ht.2)
    have hparameters : parameters.map (Token.renamed (r.here (r.isScope p parameters body))) =
        parameters.map (Token.renamed (r.spelling (r.isScope p parameters body))) := by
      apply List.map_congr_left
      intro q hq
      exact Token.renamed_congr (spelling_eq (hn.2.1 q hq) _).symm
    rw [function, hparameters]
    exact .mk name parameters ⟨_, rfl⟩ hbody

theorem functions_alike (c : Context) (scopes : List Bool) :
    (p : Way) → (n : Nat) → (fs : List Function) → Function.FormedAll fs → Function.TidyAll c fs →
      Function.NamedAll r.Old fs →
      AlikeFunctions (r.agreement hold hnew) (scopes.map r.spelling) fs (r.functions p n scopes fs)
  | _, _, [], _, _, _ => .nil _
  | p, n, f :: fs, hf, ht, hn =>
    .cons (function_alike c scopes (n :: p) (Binding.methodPlace f) f hf.1 ht.1 hn.1)
      (functions_alike c scopes p (n + 1) fs hf.2 ht.2 hn.2)

end

end

end Renaming

end LoxLang
