import LoxLang.Tree.Occurrence

namespace LoxLang

/-- The same token on another line. -/
def Token.relined (line : Nat → Nat) (t : Token) : Token := { t with line := line t.line }

@[simp]
theorem Token.relined_kind (line : Nat → Nat) (t : Token) : (t.relined line).kind = t.kind := rfl

@[simp]
theorem Token.relined_lexeme (line : Nat → Nat) (t : Token) : (t.relined line).lexeme = t.lexeme := rfl

@[simp]
theorem Token.relined_id : Token.relined id = id := rfl

mutual

/-- The same tree with its tokens on other lines and other identities of its occurrences. -/
def Expr.relabel (line : Nat → Nat) (id : OccurrenceId → OccurrenceId) : Expr → Expr
  | .literal value => .literal value
  | .group inner => .group (inner.relabel line id)
  | .unary operator operand => .unary (operator.relined line) (operand.relabel line id)
  | .binary left operator right =>
    .binary (left.relabel line id) (operator.relined line) (right.relabel line id)
  | .logical left operator right =>
    .logical (left.relabel line id) (operator.relined line) (right.relabel line id)
  | .ternary condition thenBranch elseBranch =>
    .ternary (condition.relabel line id) (thenBranch.relabel line id) (elseBranch.relabel line id)
  | .variable i name => .variable (id i) (name.relined line)
  | .assign i name value => .assign (id i) (name.relined line) (value.relabel line id)
  | .this i keyword => .this (id i) (keyword.relined line)
  | .call callee paren arguments =>
    .call (callee.relabel line id) (paren.relined line) (Expr.relabelAll line id arguments)
  | .get object name => .get (object.relabel line id) (name.relined line)
  | .set object name value =>
    .set (object.relabel line id) (name.relined line) (value.relabel line id)

def Expr.relabelAll (line : Nat → Nat) (id : OccurrenceId → OccurrenceId) : List Expr → List Expr
  | [] => []
  | e :: es => e.relabel line id :: Expr.relabelAll line id es

end

mutual

def Stmt.relabel (line : Nat → Nat) (id : OccurrenceId → OccurrenceId) : Stmt → Stmt
  | .expression value => .expression (value.relabel line id)
  | .print value => .print (value.relabel line id)
  | .var name initializer => .var (name.relined line) (initializer.map (Expr.relabel line id))
  | .block body => .block (Stmt.relabelAll line id body)
  | .branch condition thenBranch none =>
    .branch (condition.relabel line id) (thenBranch.relabel line id) none
  | .branch condition thenBranch (some elseBranch) =>
    .branch (condition.relabel line id) (thenBranch.relabel line id) (some (elseBranch.relabel line id))
  | .loop condition body => .loop (condition.relabel line id) (body.relabel line id)
  | .break keyword => .break (keyword.relined line)
  | .return keyword value => .return (keyword.relined line) (value.map (Expr.relabel line id))
  | .function declaration => .function (declaration.relabel line id)
  | .class name methods => .class (name.relined line) (Function.relabelAll line id methods)

def Stmt.relabelAll (line : Nat → Nat) (id : OccurrenceId → OccurrenceId) : List Stmt → List Stmt
  | [] => []
  | s :: ss => s.relabel line id :: Stmt.relabelAll line id ss

def Function.relabel (line : Nat → Nat) (id : OccurrenceId → OccurrenceId) : Function → Function
  | .mk name parameters body =>
    .mk (name.relined line) (parameters.map (Token.relined line)) (Stmt.relabelAll line id body)

def Function.relabelAll (line : Nat → Nat) (id : OccurrenceId → OccurrenceId) :
    List Function → List Function
  | [] => []
  | f :: fs => f.relabel line id :: Function.relabelAll line id fs

end

/-- All identities taken away. -/
abbrev Expr.erased : Expr → Expr := Expr.relabel id fun _ => 0

abbrev Expr.erasedAll : List Expr → List Expr := Expr.relabelAll id fun _ => 0

abbrev Stmt.erased : Stmt → Stmt := Stmt.relabel id fun _ => 0

abbrev Stmt.erasedAll : List Stmt → List Stmt := Stmt.relabelAll id fun _ => 0

abbrev Function.erased : Function → Function := Function.relabel id fun _ => 0

abbrev Function.erasedAll : List Function → List Function := Function.relabelAll id fun _ => 0

theorem Stmt.relabelAll_append (line : Nat → Nat) (id : OccurrenceId → OccurrenceId)
    (ss ss' : List Stmt) :
    Stmt.relabelAll line id (ss ++ ss') = Stmt.relabelAll line id ss ++ Stmt.relabelAll line id ss' := by
  induction ss with
  | nil => rfl
  | cons s ss ih => simp [Stmt.relabelAll, ih]

/-- Identities given out one after another, from `first` on and before `next`. -/
structure GivenOut (first next : OccurrenceId) (ids : List OccurrenceId) : Prop where
  le : first ≤ next
  nodup : ids.Nodup
  first_le : ∀ i ∈ ids, first ≤ i
  lt_next : ∀ i ∈ ids, i < next

namespace GivenOut

theorem nil (n : OccurrenceId) : GivenOut n n [] :=
  ⟨Nat.le_refl n, .nil, by simp, by simp⟩

theorem one (n : OccurrenceId) : GivenOut n (n + 1) [n] :=
  ⟨Nat.le_succ n, by simp, by simp, by simp⟩

/-- Identities given out to one part of a tree, and then to the next. -/
theorem append {a b c : OccurrenceId} {is js : List OccurrenceId} (hi : GivenOut a b is)
    (hj : GivenOut b c js) : GivenOut a c (is ++ js) where
  le := Nat.le_trans hi.le hj.le
  nodup := by
    refine List.nodup_append.2 ⟨hi.nodup, hj.nodup, fun i hmi j hmj he => ?_⟩
    subst he
    exact Nat.lt_irrefl i (Nat.lt_of_lt_of_le (hi.lt_next i hmi) (hj.first_le i hmj))
  first_le := by
    intro i hm
    rcases List.mem_append.1 hm with hm | hm
    · exact hi.first_le i hm
    · exact Nat.le_trans hi.le (hj.first_le i hm)
  lt_next := by
    intro i hm
    rcases List.mem_append.1 hm with hm | hm
    · exact Nat.lt_of_lt_of_le (hi.lt_next i hm) hj.le
    · exact hj.lt_next i hm

/-- In what order they stand in a tree does not matter. -/
theorem perm {a b : OccurrenceId} {is js : List OccurrenceId} (h : GivenOut a b is)
    (hp : is.Perm js) : GivenOut a b js where
  le := h.le
  nodup := hp.nodup_iff.1 h.nodup
  first_le := fun i hi => h.first_le i (hp.mem_iff.2 hi)
  lt_next := fun i hi => h.lt_next i (hp.mem_iff.2 hi)

/-- Numbers before them may be passed over. -/
theorem widen {a b c : OccurrenceId} {is : List OccurrenceId} (h : GivenOut b c is) (hab : a ≤ b) :
    GivenOut a c is where
  le := Nat.le_trans hab h.le
  nodup := h.nodup
  first_le := fun i hi => Nat.le_trans hab (h.first_le i hi)
  lt_next := h.lt_next

end GivenOut

end LoxLang
