import LoxLang.Proofs.Tree.Names

namespace LoxLang

/-- The way from the top of a program to a part of it: the number of the part taken at each step, the last first. -/
abbrev Way := List Nat

/-- A local variable or parameter: the way to the block or function in whose scope it is, and its name. -/
structure Local where
  scope : Way
  name : String
deriving DecidableEq, Repr

/-- The variable that a statement declares in the scope around it. -/
def Stmt.varName? : Stmt → Option String
  | .var name _ => some name.lexeme
  | _ => none

/-- The locals of a scope with parameters and a body. -/
def Local.ofScope (p : Way) (parameters : List Token) (body : List Stmt) : List Local :=
  (parameters.map Token.lexeme ++ body.filterMap Stmt.varName?).map (Local.mk p)

mutual

def Stmt.locals (p : Way) : Stmt → List Local
  | .block body => Local.ofScope p [] body ++ Stmt.localsAll p 0 body
  | .branch _ thenBranch none => thenBranch.locals (0 :: p)
  | .branch _ thenBranch (some elseBranch) => thenBranch.locals (0 :: p) ++ elseBranch.locals (1 :: p)
  | .loop _ body => body.locals (0 :: p)
  | .function f => f.locals p
  | .class _ methods => Function.localsAll p 0 methods
  | _ => []

/-- The locals of statements, the first of which has the number told. -/
def Stmt.localsAll (p : Way) (n : Nat) : List Stmt → List Local
  | [] => []
  | s :: ss => s.locals (n :: p) ++ Stmt.localsAll p (n + 1) ss

def Function.locals (p : Way) : Function → List Local
  | .mk _ parameters body => Local.ofScope p parameters body ++ Stmt.localsAll p 0 body

def Function.localsAll (p : Way) (n : Nat) : List Function → List Local
  | [] => []
  | f :: fs => f.locals (n :: p) ++ Function.localsAll p (n + 1) fs

end

section

variable {P : Token → Prop}

theorem Stmt.named_of_mem {s : Stmt} {ss : List Stmt} (h : Stmt.NamedAll P ss) (hs : s ∈ ss) : s.Named P := by
  induction ss with
  | nil => cases hs
  | cons t ts ih =>
    rcases List.mem_cons.1 hs with rfl | hs
    · exact h.1
    · exact ih h.2 hs

theorem Stmt.variable_named {s : Stmt} {x : String} (h : s.Named P) (hx : s.varName? = some x) :
    ∃ t, P t ∧ t.lexeme = x := by
  cases s with
  | var name initializer =>
    cases initializer with
    | none => exact ⟨name, h, Option.some.inj hx⟩
    | some value => exact ⟨name, h.1, Option.some.inj hx⟩
  | _ => cases hx

/-- The locals of a scope are named by its parameters or by the variables that its statements declare. -/
theorem Local.ofScope_named {p : Way} {parameters : List Token} {body : List Stmt}
    (hparameters : ∀ q ∈ parameters, P q) (hbody : Stmt.NamedAll P body) :
    ∀ u ∈ Local.ofScope p parameters body, ∃ t, P t ∧ t.lexeme = u.name := by
  intro u hu
  obtain ⟨x, hx, rfl⟩ := List.mem_map.1 hu
  rcases List.mem_append.1 hx with hx | hx
  · obtain ⟨q, hq, he⟩ := List.mem_map.1 hx
    exact ⟨q, hparameters q hq, he⟩
  · obtain ⟨s, hs, hv⟩ := List.mem_filterMap.1 hx
    exact Stmt.variable_named (Stmt.named_of_mem hbody hs) hv

mutual

theorem Stmt.locals_named : (p : Way) → (s : Stmt) → s.Named P → ∀ u ∈ s.locals p, ∃ t, P t ∧ t.lexeme = u.name
  | p, .block body, h, u, hu =>
    (List.mem_append.1 hu).elim (Local.ofScope_named (by simp) h u) (Stmt.localsAll_named p 0 body h u)
  | p, .branch _ thenBranch none, h, u, hu => Stmt.locals_named (0 :: p) thenBranch h.2 u hu
  | p, .branch _ thenBranch (some elseBranch), h, u, hu =>
    (List.mem_append.1 hu).elim (Stmt.locals_named (0 :: p) thenBranch h.1.2 u)
      (Stmt.locals_named (1 :: p) elseBranch h.2 u)
  | p, .loop _ body, h, u, hu => Stmt.locals_named (0 :: p) body h.2 u hu
  | p, .function f, h, u, hu => Function.locals_named p f h u hu
  | p, .class _ methods, h, u, hu => Function.localsAll_named p 0 methods h.2 u hu
  | _, .expression _, _, _, hu | _, .print _, _, _, hu | _, .var _ _, _, _, hu | _, .break _, _, _, hu
  | _, .return _ _, _, _, hu => absurd hu List.not_mem_nil

theorem Stmt.localsAll_named :
    (p : Way) → (n : Nat) → (ss : List Stmt) → Stmt.NamedAll P ss →
      ∀ u ∈ Stmt.localsAll p n ss, ∃ t, P t ∧ t.lexeme = u.name
  | _, _, [], _, _, hu => absurd hu List.not_mem_nil
  | p, n, s :: ss, h, u, hu =>
    (List.mem_append.1 hu).elim (Stmt.locals_named (n :: p) s h.1 u) (Stmt.localsAll_named p (n + 1) ss h.2 u)

theorem Function.locals_named :
    (p : Way) → (f : Function) → f.Named P → ∀ u ∈ f.locals p, ∃ t, P t ∧ t.lexeme = u.name
  | p, .mk _ _ body, h, u, hu =>
    (List.mem_append.1 hu).elim (Local.ofScope_named h.2.1 h.2.2 u) (Stmt.localsAll_named p 0 body h.2.2 u)

theorem Function.localsAll_named :
    (p : Way) → (n : Nat) → (fs : List Function) → Function.NamedAll P fs →
      ∀ u ∈ Function.localsAll p n fs, ∃ t, P t ∧ t.lexeme = u.name
  | _, _, [], _, _, hu => absurd hu List.not_mem_nil
  | p, n, f :: fs, h, u, hu =>
    (List.mem_append.1 hu).elim (Function.locals_named (n :: p) f h.1 u) (Function.localsAll_named p (n + 1) fs h.2 u)

end

end

/-- The scope of a local is where the local is found, or further down. -/
theorem Local.scope_of_mem_ofScope {u : Local} {p : Way} {parameters : List Token} {body : List Stmt}
    (hu : u ∈ Local.ofScope p parameters body) : u.scope = p := by
  obtain ⟨x, -, rfl⟩ := List.mem_map.1 hu
  rfl

theorem Way.suffix_of_cons {p q : Way} {n : Nat} (h : n :: p <:+ q) : p <:+ q := (List.suffix_cons n p).trans h

mutual

/-- The ways to the locals of a statement start with the way to the statement. -/
theorem Stmt.suffix_scope : (p : Way) → (s : Stmt) → ∀ u ∈ s.locals p, p <:+ u.scope
  | p, .block body, u, hu => by
    rcases List.mem_append.1 hu with hu | hu
    · exact (Local.scope_of_mem_ofScope hu).symm ▸ List.suffix_refl p
    · obtain ⟨k, -, hk⟩ := Stmt.suffix_scopeAll p 0 body u hu
      exact Way.suffix_of_cons hk
  | p, .branch _ thenBranch none, u, hu => Way.suffix_of_cons (Stmt.suffix_scope (0 :: p) thenBranch u hu)
  | p, .branch _ thenBranch (some elseBranch), u, hu =>
    (List.mem_append.1 hu).elim (fun hu => Way.suffix_of_cons (Stmt.suffix_scope (0 :: p) thenBranch u hu))
      fun hu => Way.suffix_of_cons (Stmt.suffix_scope (1 :: p) elseBranch u hu)
  | p, .loop _ body, u, hu => Way.suffix_of_cons (Stmt.suffix_scope (0 :: p) body u hu)
  | p, .function f, u, hu => Function.suffix_scope p f u hu
  | p, .class _ methods, u, hu => by
    obtain ⟨k, -, hk⟩ := Function.suffix_scopeAll p 0 methods u hu
    exact Way.suffix_of_cons hk
  | _, .expression _, _, hu | _, .print _, _, hu | _, .var _ _, _, hu | _, .break _, _, hu
  | _, .return _ _, _, hu => absurd hu List.not_mem_nil

theorem Stmt.suffix_scopeAll :
    (p : Way) → (n : Nat) → (ss : List Stmt) → ∀ u ∈ Stmt.localsAll p n ss, ∃ k, n ≤ k ∧ k :: p <:+ u.scope
  | _, _, [], _, hu => absurd hu List.not_mem_nil
  | p, n, s :: ss, u, hu => by
    rcases List.mem_append.1 hu with hu | hu
    · exact ⟨n, Nat.le_refl n, Stmt.suffix_scope (n :: p) s u hu⟩
    · obtain ⟨k, hle, hk⟩ := Stmt.suffix_scopeAll p (n + 1) ss u hu
      exact ⟨k, Nat.le_of_succ_le hle, hk⟩

theorem Function.suffix_scope : (p : Way) → (f : Function) → ∀ u ∈ f.locals p, p <:+ u.scope
  | p, .mk _ _ body, u, hu => by
    rcases List.mem_append.1 hu with hu | hu
    · exact (Local.scope_of_mem_ofScope hu).symm ▸ List.suffix_refl p
    · obtain ⟨k, -, hk⟩ := Stmt.suffix_scopeAll p 0 body u hu
      exact Way.suffix_of_cons hk

theorem Function.suffix_scopeAll :
    (p : Way) → (n : Nat) → (fs : List Function) →
      ∀ u ∈ Function.localsAll p n fs, ∃ k, n ≤ k ∧ k :: p <:+ u.scope
  | _, _, [], _, hu => absurd hu List.not_mem_nil
  | p, n, f :: fs, u, hu => by
    rcases List.mem_append.1 hu with hu | hu
    · exact ⟨n, Nat.le_refl n, Function.suffix_scope (n :: p) f u hu⟩
    · obtain ⟨k, hle, hk⟩ := Function.suffix_scopeAll p (n + 1) fs u hu
      exact ⟨k, Nat.le_of_succ_le hle, hk⟩

end

/-- Two parts next to each other have no scope in common. -/
theorem Way.eq_of_suffix {p q : Way} {n k : Nat} (hn : n :: p <:+ q) (hk : k :: p <:+ q) : n = k := by
  have h : n :: p <:+ k :: p := List.suffix_of_suffix_length_le hn hk (by simp)
  exact (List.cons.inj (h.eq_of_length (by simp))).1

/-- Another name for a local. -/
structure Renaming where
  target : Local
  name : String
  /-- The number of scopes outward to the one that an occurrence is bound to, unless it is global. -/
  distance? : OccurrenceId → Option Nat

namespace Renaming

variable (r : Renaming)

/-- What a name becomes that is in the scope of the target, or in another one. -/
def here (isTarget : Bool) (x : String) : String := if isTarget ∧ x = r.target.name then r.name else x

/-- What the name of an occurrence becomes. For each local scope around it is told whether it is that of the target. -/
def occurrence (scopes : List Bool) (i : OccurrenceId) (x : String) : String :=
  match r.distance? i with
  | some d => r.here (scopes.getD d false) x
  | none => x

/-- Whether a scope is that of the target. -/
def isScope (p : Way) (parameters : List Token) (body : List Stmt) : Bool :=
  decide (r.target ∈ Local.ofScope p parameters body)

def expr (scopes : List Bool) (e : Expr) : Expr := e.renamed (r.occurrence scopes)

mutual

/-- The statement at the end of a way, renamed. -/
def stmt (p : Way) (scopes : List Bool) : Stmt → Stmt
  | .expression value => .expression (r.expr scopes value)
  | .print value => .print (r.expr scopes value)
  | .var name initializer =>
    .var (name.renamed (r.here (scopes.headD false))) (initializer.map (r.expr scopes))
  | .block body => .block (stmts p 0 (r.isScope p [] body :: scopes) body)
  | .branch condition thenBranch none =>
    .branch (r.expr scopes condition) (stmt (0 :: p) scopes thenBranch) none
  | .branch condition thenBranch (some elseBranch) =>
    .branch (r.expr scopes condition) (stmt (0 :: p) scopes thenBranch) (some (stmt (1 :: p) scopes elseBranch))
  | .loop condition body => .loop (r.expr scopes condition) (stmt (0 :: p) scopes body)
  | .break keyword => .break keyword
  | .return keyword value => .return keyword (value.map (r.expr scopes))
  | .function f => .function (function p scopes f)
  | .class name methods => .class name (functions p 0 (false :: scopes) methods)

def stmts (p : Way) (n : Nat) (scopes : List Bool) : List Stmt → List Stmt
  | [] => []
  | s :: ss => stmt (n :: p) scopes s :: stmts p (n + 1) scopes ss

def function (p : Way) (scopes : List Bool) : Function → Function
  | .mk name parameters body =>
    .mk name (parameters.map (Token.renamed (r.here (r.isScope p parameters body))))
      (stmts p 0 (r.isScope p parameters body :: scopes) body)

def functions (p : Way) (n : Nat) (scopes : List Bool) : List Function → List Function
  | [] => []
  | f :: fs => function (n :: p) scopes f :: functions p (n + 1) scopes fs

end

/-- A whole program renamed. -/
def program (ss : List Stmt) : List Stmt := r.stmts [] 0 [] ss

/-- What becomes of a local. -/
def onLocal (u : Local) : Local := if u = r.target then ⟨u.scope, r.name⟩ else u

variable {r}

/-- A statement declares the variable that it declared before, under its new name. -/
theorem stmt_varName? (p : Way) (isTarget : Bool) (scopes : List Bool) (s : Stmt) :
    (r.stmt p (isTarget :: scopes) s).varName? = s.varName?.map (r.here isTarget) := by
  cases s with
  | branch condition thenBranch elseBranch => cases elseBranch <;> rfl
  | _ => rfl

theorem stmts_variables (p : Way) (n : Nat) (isTarget : Bool) (scopes : List Bool) (ss : List Stmt) :
    (r.stmts p n (isTarget :: scopes) ss).filterMap Stmt.varName? =
      (ss.filterMap Stmt.varName?).map (r.here isTarget) := by
  induction ss generalizing n with
  | nil => rfl
  | cons s ss ih =>
    rw [stmts, List.filterMap_cons, List.filterMap_cons, stmt_varName?, ih]
    cases s.varName? <;> rfl

/-- A name in the scope of the target is that of the target, or of another local. -/
theorem onLocal_eq {p : Way} {parameters : List Token} {body : List Stmt} {x : String}
    (hx : ⟨p, x⟩ ∈ Local.ofScope p parameters body) :
    r.onLocal ⟨p, x⟩ = ⟨p, r.here (r.isScope p parameters body) x⟩ := by
  unfold onLocal here isScope
  by_cases hm : r.target ∈ Local.ofScope p parameters body
  · obtain ⟨y, -, hy⟩ := List.mem_map.1 hm
    rw [← hy] at hm ⊢
    by_cases hxy : x = y <;> simp [hxy, hm]
  · have hne : ¬(⟨p, x⟩ : Local) = r.target := fun he => hm (he ▸ hx)
    simp [hm, hne]

theorem ofScope_renamed (p : Way) (n : Nat) (scopes : List Bool) (parameters : List Token) (body : List Stmt) :
    Local.ofScope p (parameters.map (Token.renamed (r.here (r.isScope p parameters body))))
        (r.stmts p n (r.isScope p parameters body :: scopes) body) =
      (Local.ofScope p parameters body).map r.onLocal := by
  have hnames : (Local.ofScope p parameters body).map r.onLocal =
      ((parameters.map Token.lexeme ++ body.filterMap Stmt.varName?).map
        (r.here (r.isScope p parameters body))).map (Local.mk p) := by
    unfold Local.ofScope
    rw [List.map_map, List.map_map]
    apply List.map_congr_left
    intro x hx
    exact onLocal_eq (List.mem_map_of_mem hx)
  rw [hnames, Local.ofScope, stmts_variables]
  simp [Function.comp_def]

mutual

/-- The renamed program has the locals that the other has, but for the name of the target. -/
theorem stmt_locals (scopes : List Bool) :
    (p : Way) → (s : Stmt) → (r.stmt p scopes s).locals p = (s.locals p).map r.onLocal
  | p, .block body => by
    have hscope := ofScope_renamed (r := r) p 0 scopes [] body
    rw [List.map_nil] at hscope
    rw [stmt, Stmt.locals, Stmt.locals, List.map_append, hscope, stmts_locals]
  | p, .branch _ thenBranch none => stmt_locals scopes (0 :: p) thenBranch
  | p, .branch _ thenBranch (some elseBranch) => by
    rw [stmt, Stmt.locals, Stmt.locals, List.map_append, stmt_locals scopes (0 :: p) thenBranch,
      stmt_locals scopes (1 :: p) elseBranch]
  | p, .loop _ body => stmt_locals scopes (0 :: p) body
  | p, .function f => function_locals scopes p f
  | p, .class _ methods => functions_locals (false :: scopes) p 0 methods
  | _, .expression _ | _, .print _ | _, .var _ _ | _, .break _ | _, .return _ _ => rfl

theorem stmts_locals (scopes : List Bool) :
    (p : Way) → (n : Nat) → (ss : List Stmt) →
      Stmt.localsAll p n (r.stmts p n scopes ss) = (Stmt.localsAll p n ss).map r.onLocal
  | _, _, [] => rfl
  | p, n, s :: ss => by
    rw [stmts, Stmt.localsAll, Stmt.localsAll, List.map_append, stmt_locals scopes (n :: p) s,
      stmts_locals scopes p (n + 1) ss]

theorem function_locals (scopes : List Bool) :
    (p : Way) → (f : Function) → (r.function p scopes f).locals p = (f.locals p).map r.onLocal
  | p, .mk name parameters body => by
    rw [function, Function.locals, Function.locals, List.map_append, ofScope_renamed, stmts_locals]

theorem functions_locals (scopes : List Bool) :
    (p : Way) → (n : Nat) → (fs : List Function) →
      Function.localsAll p n (r.functions p n scopes fs) = (Function.localsAll p n fs).map r.onLocal
  | _, _, [] => rfl
  | p, n, f :: fs => by
    rw [functions, Function.localsAll, Function.localsAll, List.map_append, function_locals scopes (n :: p) f,
      functions_locals scopes p (n + 1) fs]

end

end Renaming

end LoxLang
