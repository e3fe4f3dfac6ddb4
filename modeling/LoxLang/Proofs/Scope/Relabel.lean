import LoxLang.Binding
import LoxLang.Proofs.Tree.Relabel

namespace LoxLang

/-- The same breach at a token on another line. -/
def BindingError.relined (line : Nat → Nat) (e : BindingError) : BindingError :=
  { e with token := e.token.relined line }

namespace Binding

/-- The walk relabelled, with all that another one has noted before it. -/
def Walk.after (w before : Walk) (line : Nat → Nat) (id : OccurrenceId → OccurrenceId) : Walk where
  scopes := w.scopes
  errors := before.errors ++ w.errors.map (BindingError.relined line)
  distances := before.distances ++ w.distances.map fun d => (id d.1, d.2)
  topLevel := before.topLevel ++ w.topLevel.map id

/-- The second part of the walk does after others, and relabelled, what the first does. -/
def Carries (before : Walk) (line : Nat → Nat) (id : OccurrenceId → OccurrenceId) (f f' : Walk → Walk) : Prop :=
  ∀ w, f' (w.after before line id) = (f w).after before line id

variable {before : Walk} {line : Nat → Nat} {id : OccurrenceId → OccurrenceId}

namespace Carries

theorem same : Carries before line id (fun w => w) fun w => w := fun _ => rfl

theorem comp {f f' g g' : Walk → Walk} (hf : Carries before line id f f') (hg : Carries before line id g g') :
    Carries before line id (fun w => g (f w)) fun w => g' (f' w) := by
  intro w
  dsimp only
  rw [hf w, hg (f w)]

theorem inScope {f f' : Walk → Walk} (scope : Scope) (hf : Carries before line id f f') :
    Carries before line id (fun w => w.inScope scope f) fun w => w.inScope scope f' := by
  intro w
  have h := hf { w with scopes := scope :: w.scopes }
  exact congrArg (fun w : Walk => { w with scopes := w.scopes.drop 1 }) h

theorem report (cause : BindingError.Cause) (token : Token) :
    Carries before line id (·.report cause token) (·.report cause (token.relined line)) := by
  intro w
  simp [Walk.report, Walk.after, BindingError.relined]

theorem declare (name : Token) : Carries before line id (·.declare name) (·.declare (name.relined line)) := by
  intro w
  unfold Walk.declare
  cases hs : w.scopes with
  | nil => simp [Walk.after, hs]
  | cons scope outer =>
    simp only [Walk.after, hs, Token.relined_lexeme]
    split
    · simp [Walk.report, BindingError.relined, hs]
    · rfl

theorem define (name : Token) : Carries before line id (·.define name) (·.define (name.relined line)) := by
  intro w
  unfold Walk.define
  cases hs : w.scopes <;> simp [Walk.after, hs]

/-- The distance is that of the name, and it is noted under the other identity. -/
theorem note (place : Place) (i : OccurrenceId) (name : Token) :
    Carries before line id (·.note place i name) (·.note place (id i) (name.relined line)) := by
  intro w
  have hd : (w.after before line id).distance? name.lexeme = w.distance? name.lexeme := rfl
  unfold Walk.note
  dsimp only [Token.relined_lexeme]
  rw [hd]
  cases w.distance? name.lexeme with
  | none => rfl
  | some d => by_cases hp : place.body = .topLevel <;> simp [hp, Walk.after]

theorem parameters (ps : List Token) :
    Carries before line id (fun w => ps.foldl (fun w p => (w.declare p).define p) w)
      fun w => (ps.map (Token.relined line)).foldl (fun w p => (w.declare p).define p) w := by
  induction ps with
  | nil => exact same
  | cons p ps ih => exact ((declare p).comp (define p)).comp ih

end Carries

theorem variable_carries (place : Place) (i : OccurrenceId) (name : Token) :
    Carries before line id (expr place (.variable i name)) (expr place (.variable (id i) (name.relined line))) := by
  intro w
  have hi : (w.after before line id).isIncomplete (name.relined line) = w.isIncomplete name := rfl
  simp only [expr, hi]
  split
  · exact (Carries.report .readInInitializer name).comp (.note place i name) w
  · exact Carries.note place i name w

theorem this_carries (place : Place) (i : OccurrenceId) (keyword : Token) :
    Carries before line id (expr place (.this i keyword)) (expr place (.this (id i) (keyword.relined line))) := by
  intro w
  simp only [expr]
  split
  · exact Carries.note place i keyword w
  · exact Carries.report .thisOutsideClass keyword w

mutual

theorem expr_carries (place : Place) :
    (e : Expr) → Carries before line id (expr place e) (expr place (e.relabel line id))
  | .literal _ => .same
  | .group inner => expr_carries place inner
  | .unary _ operand => expr_carries place operand
  | .binary left _ right => (expr_carries place left).comp (expr_carries place right)
  | .logical left _ right => (expr_carries place left).comp (expr_carries place right)
  | .ternary condition thenBranch elseBranch =>
    ((expr_carries place condition).comp (expr_carries place thenBranch)).comp (expr_carries place elseBranch)
  | .variable i name => variable_carries place i name
  | .assign i name value => (expr_carries place value).comp (.note place i name)
  | .this i keyword => this_carries place i keyword
  | .call callee _ arguments => (expr_carries place callee).comp (exprs_carry place arguments)
  | .get object _ => expr_carries place object
  | .set object _ value => (expr_carries place value).comp (expr_carries place object)

theorem exprs_carry (place : Place) :
    (es : List Expr) → Carries before line id (exprs place es) (exprs place (Expr.relabelAll line id es))
  | [] => .same
  | e :: es => (expr_carries place e).comp (exprs_carry place es)

end

theorem checkReturn_carries (place : Place) (keyword : Token) (hasValue : Bool) :
    Carries before line id (checkReturn place keyword hasValue)
      (checkReturn place (keyword.relined line) hasValue) := by
  intro w
  unfold checkReturn
  by_cases ht : place.body = .topLevel
  · simp only [ht, if_true]
    split
    · exact (Carries.report .returnAtTopLevel keyword).comp (.report .returnFromInitializer keyword) w
    · exact Carries.report .returnAtTopLevel keyword w
  · simp only [ht, if_false]
    split
    · exact Carries.report .returnFromInitializer keyword w
    · rfl

theorem methodPlace_relabel (f : Function) : methodPlace (f.relabel line id) = methodPlace f := by
  cases f
  rfl

mutual

theorem stmt_carries (place : Place) :
    (s : Stmt) → Carries before line id (stmt place s) (stmt place (s.relabel line id))
  | .expression value => expr_carries place value
  | .print value => expr_carries place value
  | .var name none => (Carries.declare name).comp (.define name)
  | .var name (some value) => ((Carries.declare name).comp (expr_carries place value)).comp (.define name)
  | .block body => .inScope .empty (stmts_carry place body)
  | .branch condition thenBranch none => (expr_carries place condition).comp (stmt_carries place thenBranch)
  | .branch condition thenBranch (some elseBranch) =>
    ((expr_carries place condition).comp (stmt_carries place thenBranch)).comp (stmt_carries place elseBranch)
  | .loop condition body => (expr_carries place condition).comp (stmt_carries place body)
  | .break _ => .same
  | .return keyword none => checkReturn_carries place keyword false
  | .return keyword (some value) => (checkReturn_carries place keyword true).comp (expr_carries place value)
  | .function f => by
    have hname : (f.relabel line id).name = f.name.relined line := by cases f; rfl
    have hdeclare : Carries before line id (fun w => (w.declare f.name).define f.name)
        fun w => (w.declare (f.relabel line id).name).define (f.relabel line id).name := by
      rw [hname]
      exact (Carries.declare f.name).comp (.define f.name)
    exact hdeclare.comp (function_carries ⟨.function, place.inClass⟩ f)
  | .class name declared =>
    ((Carries.declare name).comp (.define name)).comp (.inScope thisScope (methods_carry declared))

theorem stmts_carry (place : Place) :
    (ss : List Stmt) → Carries before line id (stmts place ss) (stmts place (Stmt.relabelAll line id ss))
  | [] => .same
  | s :: ss => (stmt_carries place s).comp (stmts_carry place ss)

theorem function_carries (place : Place) :
    (f : Function) → Carries before line id (function place f) (function place (f.relabel line id))
  | .mk _ parameters body => .inScope .empty ((Carries.parameters parameters).comp (stmts_carry place body))

theorem methods_carry :
    (fs : List Function) → Carries before line id (methods fs) (methods (Function.relabelAll line id fs))
  | [] => .same
  | f :: fs => by
    have hf : Carries before line id (function (methodPlace f) f)
        (function (methodPlace (f.relabel line id)) (f.relabel line id)) := by
      rw [methodPlace_relabel]
      exact function_carries (methodPlace f) f
    exact hf.comp (methods_carry fs)

end

end Binding

end LoxLang
