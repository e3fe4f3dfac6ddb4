import Mathlib.Data.List.Count
import Mathlib.Data.List.Nodup
import LoxLang.Interpreter
import LoxLang.Proofs.Grammar.Programs

namespace LoxLang

namespace GivenOut

variable {a b c : OccurrenceId} {is js : List OccurrenceId}

/-- Identities may be left out, and later ones passed over. -/
theorem fewer (h : GivenOut a b is) (hbc : b ≤ c) (hcount : ∀ i, js.count i ≤ is.count i) : GivenOut a c js := by
  have hmem : ∀ i ∈ js, i ∈ is := fun i hi =>
    List.count_pos_iff.1 (Nat.lt_of_lt_of_le (List.count_pos_iff.2 hi) (hcount i))
  exact {
    le := Nat.le_trans h.le hbc
    nodup := List.nodup_iff_count_le_one.2 fun i =>
      Nat.le_trans (hcount i) (List.nodup_iff_count_le_one.1 h.nodup i)
    first_le := fun i hi => h.first_le i (hmem i hi)
    lt_next := fun i hi => Nat.lt_of_lt_of_le (h.lt_next i (hmem i hi)) hbc }

/-- The identity that is free is given out once, and the next one is free then. -/
theorem fresh (h : GivenOut a b is) : GivenOut a (b + 1) (b :: is) where
  le := Nat.le_succ_of_le h.le
  nodup := List.nodup_cons.2 ⟨fun hb => Nat.lt_irrefl b (h.lt_next b hb), h.nodup⟩
  first_le := by
    intro i hi
    rcases List.mem_cons.1 hi with rfl | hi
    · exact h.le
    · exact h.first_le i hi
  lt_next := by
    intro i hi
    rcases List.mem_cons.1 hi with rfl | hi
    · exact Nat.lt_succ_self i
    · exact Nat.lt_succ_of_lt (h.lt_next i hi)

end GivenOut

namespace Parse

variable {α β : Type}

/-- Where the identities `used` have been given out, the reader gives out others only: all of them and those in what it
reads are different, as far as they are still used. -/
def Numbers (used : List OccurrenceId) (ids : α → List OccurrenceId) (x : Parse α) : Prop :=
  ∀ first s, GivenOut first s.nextId used → match x s with
    | .done a s' => s.nextId ≤ s'.nextId ∧ GivenOut first s'.nextId (ids a)
    | .failed _ s' => s.nextId ≤ s'.nextId
    | .exhausted => True

namespace Numbers

variable {used : List OccurrenceId} {ids : α → List OccurrenceId} {ids' : β → List OccurrenceId}

/-- What holds no other identities than are given out already. -/
theorem pure {a : α} (h : ∀ i, (ids a).count i ≤ used.count i) : Numbers used ids (Pure.pure a) :=
  fun _ _ hg => ⟨Nat.le_refl _, hg.fewer (Nat.le_refl _) h⟩

theorem exhausted : Numbers used ids exhausted := fun _ _ _ => trivial

theorem fail (cause : SyntaxError.Cause) : Numbers used ids (fail cause) := fun _ _ _ => Nat.le_refl _

/-- The second reader finds given out what the first has given out. -/
theorem bind {x : Parse α} {f : α → Parse β} (hx : Numbers used ids x) (hf : ∀ a, Numbers (ids a) ids' (f a)) :
    Numbers used ids' (x >>= f) := by
  intro first s hg
  have hxs := hx first s hg
  cases h : x s with
  | done a s' =>
    rw [h] at hxs
    have hfs := hf a first s' hxs.2
    rw [bind_done h]
    cases h' : f a s' with
    | done b s'' =>
      rw [h'] at hfs
      exact ⟨Nat.le_trans hxs.1 hfs.1, hfs.2⟩
    | failed e s'' =>
      rw [h'] at hfs
      exact Nat.le_trans hxs.1 hfs
    | exhausted => trivial
  | failed e s' =>
    rw [h] at hxs
    rw [bind_failed h]
    exact hxs
  | exhausted =>
    rw [bind_exhausted h]
    trivial

theorem map {x : Parse α} {f : α → β} (hx : Numbers used ids x) (hf : ∀ a i, (ids' (f a)).count i ≤ (ids a).count i) :
    Numbers used ids' (f <$> x) := by
  rw [← bind_pure_comp]
  exact .bind hx fun a => .pure (hf a)

/-- A reader that does not concern itself with identities. -/
theorem quiet {x : Parse α} (h : ∀ s, (∃ a s', x s = .done a s' ∧ s'.nextId = s.nextId) ∨
    ∃ e s', x s = .failed e s' ∧ s'.nextId = s.nextId) : Numbers used (fun _ => used) x := by
  intro first s hg
  rcases h s with ⟨a, s', hx, hn⟩ | ⟨e, s', hx, hn⟩
  · rw [hx]
    exact ⟨Nat.le_of_eq hn.symm, hn ▸ hg⟩
  · rw [hx]
    exact Nat.le_of_eq hn.symm

/-- The one reader that gives out an identity. -/
theorem freshId : Numbers used (fun i => i :: used) freshId :=
  fun _ _ hg => ⟨Nat.le_succ _, hg.fresh⟩

theorem report (cause : SyntaxError.Cause) (t : Token) : Numbers used (fun _ => used) (report cause t) :=
  .quiet fun _ => .inl ⟨_, _, rfl, rfl⟩

theorem current : Numbers used (fun _ => used) current := .quiet fun _ => .inl ⟨_, _, rfl, rfl⟩

theorem next (p : Token → Bool) : Numbers used (fun _ => used) (next p) := .quiet fun _ => .inl ⟨_, _, rfl, rfl⟩

theorem atEnd (inBraces : Bool) : Numbers used (fun _ => used) (atEnd inBraces) :=
  .quiet fun _ => .inl ⟨_, _, rfl, rfl⟩

/-- Taking a token changes none of the identities. -/
theorem take? (f : Token → Option α) : Numbers used (fun _ => used) (take? f) := by
  refine .quiet fun s => .inl ?_
  unfold Parse.take?
  cases s.tokens with
  | nil => exact ⟨_, _, rfl, rfl⟩
  | cons t rest =>
    dsimp only
    cases f t with
    | none => exact ⟨_, _, rfl, rfl⟩
    | some a => exact ⟨_, _, rfl, rfl⟩

theorem accept? (p : Token → Bool) : Numbers used (fun _ => used) (accept? p) := .take? _

theorem accept (p : Token → Bool) : Numbers used (fun _ => used) (accept p) :=
  .bind (.accept? p) fun _ => .pure fun _ => Nat.le_refl _

theorem expect (p : Token → Bool) (cause : SyntaxError.Cause) : Numbers used (fun _ => used) (expect p cause) := by
  refine .bind (.accept? p) fun t => ?_
  cases t with
  | none => exact .fail cause
  | some t => exact .pure fun _ => Nat.le_refl _

/-- Lists with commas between their items, whatever the items are. -/
theorem commas {item : Parse α} {others : Parse (List α)} {held : α → List OccurrenceId}
    {heldAll : List α → List OccurrenceId} (hitem : ∀ used, Numbers used (fun a => used ++ held a) item)
    (hothers : ∀ used, Numbers used (fun as => used ++ heldAll as) others) (hone : ∀ a, heldAll [a] = held a)
    (hcons : ∀ a as, heldAll (a :: as) = held a ++ heldAll as) (used : List OccurrenceId) :
    Numbers used (fun as => used ++ heldAll as) (commas item others) := by
  refine .bind (hitem used) fun first => .bind (.accept _) fun more => ?_
  cases more with
  | true =>
    refine .bind (hothers _) fun rest => .pure fun i => Nat.le_of_eq ?_
    rw [hcons, List.append_assoc]
  | false =>
    refine .pure fun i => Nat.le_of_eq ?_
    rw [hone]

end Numbers

/-- What all readers of expressions do. -/
structure ExprNumbers (fuel : Nat) : Prop where
  expression : ∀ used, Numbers used (fun e => used ++ ids e) (expression fuel)
  ternary : ∀ used, Numbers used (fun e => used ++ ids e) (ternary fuel)
  binary : ∀ used l, Numbers used (fun e => used ++ ids e) (binary fuel l)
  operand : ∀ used l, Numbers used (fun e => used ++ ids e) (operand fuel l)
  chain : ∀ used l left, Numbers (used ++ ids left) (fun e => used ++ ids e) (chain fuel l left)
  unary : ∀ used, Numbers used (fun e => used ++ ids e) (unary fuel)
  suffixes : ∀ used callee, Numbers (used ++ ids callee) (fun e => used ++ ids e) (suffixes fuel callee)
  arguments : ∀ used, Numbers used (fun es => used ++ idsAll es) (arguments fuel)
  argumentsFrom : ∀ used count, Numbers used (fun es => used ++ idsAll es) (argumentsFrom fuel count)
  primary : ∀ used, Numbers used (fun e => used ++ ids e) (primary fuel)

/-- A name on the left side of an assignment loses the identity that it was read with, and the assignment gets one of
its own. -/
theorem assignment_numbers (used : List OccurrenceId) (target : Expr) (equals : Token) (value : Expr) :
    Numbers (used ++ ids target ++ ids value) (fun e => used ++ ids e) (assignment target equals value) := by
  unfold assignment
  cases target with
  | «variable» i name =>
    refine .bind .freshId fun j => .pure fun k => ?_
    simp only [ids, Expr.occurrences, List.map_cons, List.map_nil, List.count_append, List.count_cons]
    omega
  | get object name =>
    refine .pure fun k => ?_
    simp only [ids, Expr.occurrences, List.map_append, List.count_append]
    omega
  | _ =>
    refine .bind (.report _ equals) fun _ => .pure fun k => ?_
    simp only [List.count_append]
    omega

/-- All readers of expressions, by induction on fuel. -/
theorem exprNumbers (fuel : Nat) : ExprNumbers fuel := by
  induction fuel with
  | zero => constructor <;> intros <;> exact .exhausted
  | succ fuel ih =>
    constructor
    case expression =>
      intro used
      unfold expression
      refine .bind (ih.ternary used) fun target => .bind (.accept? _) fun equals => ?_
      cases equals with
      | none => exact .pure fun _ => Nat.le_refl _
      | some equals => exact .bind (ih.expression _) fun value => assignment_numbers used target equals value
    case ternary =>
      intro used
      unfold ternary
      refine .bind (ih.binary used .or) fun condition => .bind (.accept _) fun asked => ?_
      cases asked with
      | false => exact .pure fun _ => Nat.le_refl _
      | true =>
        refine .bind (ih.ternary _) fun yes => .bind (.expect _ _) fun colon => ?_
        refine .bind (ih.ternary _) fun no => .pure fun i => ?_
        simp [ids, Expr.occurrences, List.count_append]
    case binary =>
      intro used l
      unfold binary
      exact .bind (ih.operand used l) fun left => ih.chain used l left
    case operand =>
      intro used l
      unfold operand
      cases l.tighter? with
      | none => exact ih.unary used
      | some tighter => exact ih.binary used tighter
    case chain =>
      intro used l left
      unfold chain
      refine .bind (.accept? _) fun operator => ?_
      cases operator with
      | none => exact .pure fun _ => Nat.le_refl _
      | some operator =>
        refine .bind (ih.operand _ l) fun right => ?_
        have hjoin : used ++ ids left ++ ids right = used ++ ids (l.join left operator right) := by
          cases l <;> simp [ids, Level.join, Expr.occurrences]
        rw [hjoin]
        exact ih.chain used l (l.join left operator right)
    case unary =>
      intro used
      unfold unary
      refine .bind (.accept? _) fun operator => ?_
      cases operator with
      | none => exact .bind (ih.primary used) fun callee => ih.suffixes used callee
      | some operator => exact .bind (ih.unary used) fun right => .pure fun _ => Nat.le_refl _
    case suffixes =>
      intro used callee
      unfold suffixes
      refine .bind (.accept _) fun called => ?_
      cases called with
      | true =>
        refine .bind (ih.arguments _) fun given => .bind (.expect _ _) fun paren => ?_
        have hcall : used ++ ids callee ++ idsAll given = used ++ ids (.call callee paren given) := by
          simp [ids, idsAll, Expr.occurrences]
        rw [hcall]
        exact ih.suffixes used (.call callee paren given)
      | false =>
        refine .bind (.accept _) fun dotted => ?_
        cases dotted with
        | true => exact .bind (.expect _ _) fun name => ih.suffixes used (.get callee name)
        | false => exact .pure fun _ => Nat.le_refl _
    case arguments =>
      intro used
      unfold arguments
      refine .bind (.next _) fun closed => ?_
      cases closed with
      | true => exact .pure fun i => by simp [idsAll, Expr.occurrencesAll]
      | false => exact ih.argumentsFrom used 0
    case argumentsFrom =>
      intro used count
      have hrest : Numbers used (fun es => used ++ idsAll es) _ :=
        .commas ih.expression (ih.argumentsFrom · (count + 1)) (fun e => by simp [ids, idsAll, Expr.occurrencesAll])
          (fun e es => by simp [ids, idsAll, Expr.occurrencesAll]) used
      unfold argumentsFrom
      split
      · exact .bind .current fun t => .bind (.report _ t) fun _ => hrest
      · exact hrest
    case primary =>
      intro used
      unfold primary
      refine .bind (.take? _) fun value => ?_
      cases value with
      | some value => exact .pure fun i => by simp [ids, Expr.occurrences]
      | none =>
        refine .bind (.accept? _) fun keyword => ?_
        cases keyword with
        | some keyword =>
          refine .bind .freshId fun i => .pure fun k => ?_
          simp [ids, Expr.occurrences, List.count_append, List.count_cons]
        | none =>
          refine .bind (.accept? _) fun name => ?_
          cases name with
          | some name =>
            refine .bind .freshId fun i => .pure fun k => ?_
            simp [ids, Expr.occurrences, List.count_append, List.count_cons]
          | none =>
            refine .bind (.accept _) fun grouped => ?_
            cases grouped with
            | true =>
              exact .bind (ih.expression used) fun inner => .bind (.expect _ _) fun paren =>
                .pure fun _ => Nat.le_refl _
            | false => exact .fail _

/-- The identities in what is dropped are not given out again. -/
theorem Numbers.recover {x : Parse Stmt} {used : List OccurrenceId}
    (hx : Numbers used (fun stmt => used ++ stmt.ids) x) :
    Numbers used (fun stmt => used ++ Stmt.idsAll stmt.toList) (recover x) := by
  intro first s hg
  have hxs := hx first s hg
  unfold Parse.recover
  cases h : x s with
  | done stmt s' =>
    rw [h] at hxs
    simpa [Stmt.ids, Stmt.idsAll, Stmt.occurrencesAll] using hxs
  | failed e s' =>
    rw [h] at hxs
    refine ⟨hxs, hg.fewer hxs fun i => ?_⟩
    simp [Stmt.idsAll, Stmt.occurrencesAll]
  | exhausted => trivial

theorem parametersFrom_numbers (fuel count : Nat) (used : List OccurrenceId) :
    Numbers used (fun _ => used) (parametersFrom fuel count) := by
  induction fuel generalizing count with
  | zero => exact .exhausted
  | succ fuel ih =>
    have hrest : Numbers used (fun _ : List Token => used)
        (Parse.commas (expect Token.isIdentifier .parameterName) (parametersFrom fuel (count + 1))) := by
      refine .bind (.expect _ _) fun first => .bind (.accept _) fun more => ?_
      cases more with
      | true => exact .bind (ih (count + 1)) fun rest => .pure fun _ => Nat.le_refl _
      | false => exact .pure fun _ => Nat.le_refl _
    unfold parametersFrom
    split
    · exact .bind .current fun t => .bind (.report _ t) fun _ => hrest
    · exact hrest

theorem parameters_numbers (fuel : Nat) (used : List OccurrenceId) :
    Numbers used (fun _ => used) (parameters fuel) := by
  unfold parameters
  refine .bind (.next _) fun closed => ?_
  cases closed with
  | true => exact .pure fun _ => Nat.le_refl _
  | false => exact parametersFrom_numbers fuel 0 used

/-- A part that may be left out. -/
theorem expressionUnless_numbers (fuel : Nat) (p : Token → Bool) (used : List OccurrenceId) :
    Numbers used (fun e => used ++ idsIn ids e) (expressionUnless fuel p) := by
  unfold expressionUnless
  refine .bind (.next p) fun found => ?_
  cases found with
  | true => exact .pure fun i => by simp [idsIn]
  | false => exact .map ((exprNumbers fuel).expression used) fun _ _ => Nat.le_refl _

theorem varDeclaration_numbers (fuel : Nat) (used : List OccurrenceId) :
    Numbers used (fun stmt => used ++ stmt.ids) (varDeclaration fuel) := by
  unfold varDeclaration
  refine .bind (.expect _ _) fun name => .bind (.accept _) fun initialized => ?_
  cases initialized with
  | true =>
    refine .bind ((exprNumbers fuel).expression used) fun value => ?_
    exact .bind (.expect _ _) fun semicolon => .pure fun _ => Nat.le_refl _
  | false => exact .bind (.expect _ _) fun semicolon => .pure fun i => by simp [Stmt.ids, Stmt.occurrences]

theorem expressionStatement_numbers (fuel : Nat) (used : List OccurrenceId) :
    Numbers used (fun stmt => used ++ stmt.ids) (expressionStatement fuel) := by
  unfold expressionStatement
  refine .bind ((exprNumbers fuel).expression used) fun value => ?_
  exact .bind (.expect _ _) fun semicolon => .pure fun _ => Nat.le_refl _

theorem printStatement_numbers (fuel : Nat) (used : List OccurrenceId) :
    Numbers used (fun stmt => used ++ stmt.ids) (printStatement fuel) := by
  unfold printStatement
  refine .bind ((exprNumbers fuel).expression used) fun value => ?_
  exact .bind (.expect _ _) fun semicolon => .pure fun _ => Nat.le_refl _

theorem returnStatement_numbers (fuel : Nat) (keyword : Token) (used : List OccurrenceId) :
    Numbers used (fun stmt => used ++ stmt.ids) (returnStatement fuel keyword) := by
  unfold returnStatement
  refine .bind (expressionUnless_numbers fuel _ used) fun value => ?_
  refine .bind (.expect _ _) fun semicolon => .pure fun i => ?_
  cases value <;> simp [Stmt.ids, Stmt.occurrences, idsIn, ids]

theorem breakStatement_numbers (keyword : Token) (used : List OccurrenceId) :
    Numbers used (fun stmt => used ++ stmt.ids) (breakStatement keyword) := by
  unfold breakStatement
  exact .bind (.expect _ _) fun semicolon => .pure fun i => by simp [Stmt.ids, Stmt.occurrences]

theorem forInitializer_numbers (fuel : Nat) (used : List OccurrenceId) :
    Numbers used (fun stmt => used ++ idsIn Stmt.ids stmt) (forInitializer fuel) := by
  unfold forInitializer
  refine .bind (.accept _) fun absent => ?_
  cases absent with
  | true => exact .pure fun i => by simp [idsIn]
  | false =>
    refine .bind (.accept _) fun declared => ?_
    cases declared with
    | true => exact .map (varDeclaration_numbers fuel used) fun _ _ => Nat.le_refl _
    | false => exact .map (expressionStatement_numbers fuel used) fun _ _ => Nat.le_refl _

/-- The loop that a `for` stands for holds each of its parts once. -/
theorem count_forLoop (initializer : Option Stmt) (condition increment : Option Expr) (body : Stmt) (i : OccurrenceId) :
    (Stmt.forLoop initializer condition increment body).ids.count i =
      (idsIn Stmt.ids initializer).count i + (idsIn ids condition).count i + (idsIn ids increment).count i +
        body.ids.count i := by
  cases initializer <;> cases condition <;> cases increment <;>
    simp [Stmt.forLoop, Stmt.ids, Stmt.occurrences, Stmt.occurrencesAll, Expr.occurrences, idsIn, ids,
      List.count_append] <;> omega

/-- What all readers of statements do. -/
structure StmtNumbers (fuel : Nat) : Prop where
  declarations : ∀ used inBlock, Numbers used (fun ss => used ++ Stmt.idsAll ss) (declarations fuel inBlock)
  declaration : ∀ used, Numbers used (fun stmt => used ++ stmt.ids) (declaration fuel)
  classDeclaration : ∀ used, Numbers used (fun stmt => used ++ stmt.ids) (classDeclaration fuel)
  methods : ∀ used, Numbers used (fun fs => used ++ Function.idsAll fs) (methods fuel)
  function : ∀ used callable, Numbers used (fun f => used ++ f.ids) (function fuel callable)
  block : ∀ used, Numbers used (fun ss => used ++ Stmt.idsAll ss) (block fuel)
  statement : ∀ used, Numbers used (fun stmt => used ++ stmt.ids) (statement fuel)
  forStatement : ∀ used, Numbers used (fun stmt => used ++ stmt.ids) (forStatement fuel)
  ifStatement : ∀ used, Numbers used (fun stmt => used ++ stmt.ids) (ifStatement fuel)
  whileStatement : ∀ used, Numbers used (fun stmt => used ++ stmt.ids) (whileStatement fuel)

/-- All readers of statements, by induction on fuel. -/
theorem stmtNumbers (fuel : Nat) : StmtNumbers fuel := by
  induction fuel with
  | zero => constructor <;> intros <;> exact .exhausted
  | succ fuel ih =>
    constructor
    case declarations =>
      intro used inBlock
      unfold declarations
      refine .bind (.atEnd inBlock) fun ended => ?_
      cases ended with
      | true => exact .pure fun i => by simp [Stmt.idsAll, Stmt.occurrencesAll]
      | false =>
        refine .bind (ih.declaration used).recover fun first => .bind (ih.declarations _ inBlock) fun rest => ?_
        refine .pure fun i => ?_
        cases first <;> simp [Stmt.idsAll, Stmt.occurrencesAll]
    case declaration =>
      intro used
      unfold declaration
      refine .bind (.accept _) fun isClass => ?_
      cases isClass with
      | true => exact ih.classDeclaration used
      | false =>
        refine .bind (.accept _) fun isFunction => ?_
        cases isFunction with
        | true => exact .map (ih.function used .function) fun _ _ => Nat.le_refl _
        | false =>
          refine .bind (.accept _) fun isVar => ?_
          cases isVar with
          | true => exact varDeclaration_numbers fuel used
          | false => exact ih.statement used
    case classDeclaration =>
      intro used
      unfold classDeclaration
      refine .bind (.expect _ _) fun name => .bind (.expect _ _) fun left => ?_
      refine .bind (ih.methods used) fun declared => ?_
      exact .bind (.expect _ _) fun right => .pure fun _ => Nat.le_refl _
    case methods =>
      intro used
      unfold methods
      refine .bind (.atEnd true) fun ended => ?_
      cases ended with
      | true => exact .pure fun i => by simp [Function.idsAll, Function.occurrencesAll]
      | false =>
        refine .bind (ih.function used .method) fun first => .bind (ih.methods _) fun rest => .pure fun i => ?_
        simp [Function.ids, Function.idsAll, Function.occurrencesAll]
    case function =>
      intro used callable
      unfold function
      refine .bind (.expect _ _) fun name => .bind (.expect _ _) fun left => ?_
      refine .bind (parameters_numbers fuel used) fun declared => ?_
      refine .bind (.expect _ _) fun right => .bind (.expect _ _) fun brace => ?_
      exact .bind (ih.block used) fun body => .pure fun _ => Nat.le_refl _
    case block =>
      intro used
      unfold block
      refine .bind (ih.declarations used true) fun body => ?_
      exact .bind (.expect _ _) fun right => .pure fun _ => Nat.le_refl _
    case statement =>
      intro used
      unfold statement
      refine .bind (.accept _) fun isFor => ?_
      cases isFor with
      | true => exact ih.forStatement used
      | false =>
      refine .bind (.accept _) fun isIf => ?_
      cases isIf with
      | true => exact ih.ifStatement used
      | false =>
      refine .bind (.accept _) fun isPrint => ?_
      cases isPrint with
      | true => exact printStatement_numbers fuel used
      | false =>
      refine .bind (.accept? _) fun return_ => ?_
      cases return_ with
      | some keyword => exact returnStatement_numbers fuel keyword used
      | none =>
      refine .bind (.accept _) fun isWhile => ?_
      cases isWhile with
      | true => exact ih.whileStatement used
      | false =>
      refine .bind (.accept? _) fun break_ => ?_
      cases break_ with
      | some keyword => exact breakStatement_numbers keyword used
      | none =>
      refine .bind (.accept _) fun isBlock => ?_
      cases isBlock with
      | true => exact .map (ih.block used) fun _ _ => Nat.le_refl _
      | false => exact expressionStatement_numbers fuel used
    case forStatement =>
      intro used
      unfold forStatement
      refine .bind (.expect _ _) fun left => .bind (forInitializer_numbers fuel used) fun initializer => ?_
      refine .bind (expressionUnless_numbers fuel _ _) fun condition => ?_
      refine .bind (.expect _ _) fun semicolon => ?_
      refine .bind (expressionUnless_numbers fuel _ _) fun increment => ?_
      refine .bind (.expect _ _) fun right => .bind (ih.statement _) fun body => .pure fun i => ?_
      simp only [List.count_append, count_forLoop]
      omega
    case ifStatement =>
      intro used
      unfold ifStatement
      refine .bind (.expect _ _) fun left => .bind ((exprNumbers fuel).expression used) fun condition => ?_
      refine .bind (.expect _ _) fun right => .bind (ih.statement _) fun yes => ?_
      refine .bind (.accept _) fun hasElse => ?_
      cases hasElse with
      | true =>
        refine .bind (ih.statement _) fun no => .pure fun i => ?_
        simp [Stmt.ids, Stmt.occurrences, ids]
      | false => exact .pure fun i => by simp [Stmt.ids, Stmt.occurrences, ids]
    case whileStatement =>
      intro used
      unfold whileStatement
      refine .bind (.expect _ _) fun left => .bind ((exprNumbers fuel).expression used) fun condition => ?_
      refine .bind (.expect _ _) fun right => .bind (ih.statement _) fun body => .pure fun i => ?_
      simp [Stmt.ids, Stmt.occurrences, ids]

/-- Whatever a token list is, its statements hold identities from the first that was free on, each once. -/
theorem ofTokens_givenOut (tokens : List Token) (n : OccurrenceId) :
    GivenOut n (Parsed.ofTokens tokens n).nextId (Stmt.idsAll (Parsed.ofTokens tokens n).statements) := by
  obtain ⟨statements, s, hd, ho⟩ := ofTokens_done tokens n
  have h := (stmtNumbers (Parsed.fuelFor (start tokens n).tokens)).declarations [] false n (start tokens n) (.nil n)
  rw [hd] at h
  rw [ho]
  exact h.2

end Parse

namespace Parsed

/-- Token lists read one after another, each with the identities that the ones before have left. -/
def series (nextId : OccurrenceId) : List (List Token) → List Parsed
  | [] => []
  | tokens :: rest => ofTokens tokens nextId :: series (ofTokens tokens nextId).nextId rest

theorem idsAll_append (ss ss' : List Stmt) : Stmt.idsAll (ss ++ ss') = Stmt.idsAll ss ++ Stmt.idsAll ss' := by
  induction ss with
  | nil => rfl
  | cons s ss ih =>
    simp only [Stmt.idsAll, List.cons_append, Stmt.occurrencesAll, List.map_append] at ih ⊢
    rw [ih, List.append_assoc]

/-- What is read later gets later identities. -/
theorem series_givenOut (n : OccurrenceId) (lists : List (List Token)) :
    ∃ next, GivenOut n next (Stmt.idsAll ((series n lists).flatMap statements)) := by
  induction lists generalizing n with
  | nil => exact ⟨n, .nil n⟩
  | cons tokens rest ih =>
    obtain ⟨next, hrest⟩ := ih (ofTokens tokens n).nextId
    refine ⟨next, ?_⟩
    rw [series, List.flatMap_cons, idsAll_append]
    exact (Parse.ofTokens_givenOut tokens n).append hrest

/-- Of all that is read from any token lists one after another, with errors or without, no two occurrences have one
identity, and none has one that was given out before. So the distance that is noted for an occurrence is that of no
other. -/
theorem occurrences_have_ids_of_their_own (n : OccurrenceId) (lists : List (List Token)) :
    let occurrences := Stmt.occurrencesAll ((series n lists).flatMap statements)
    (occurrences.map Occurrence.id).Nodup ∧ (∀ o ∈ occurrences, n ≤ o.id) ∧
      ∀ (i : Interpreter) (d j k : Nat) (hj : j < occurrences.length) (hk : k < occurrences.length),
        (i.note occurrences[j].id d).distances[occurrences[k].id]? =
          if j = k then some d else i.distances[occurrences[k].id]? := by
  intro occurrences
  obtain ⟨next, -, hnodup, hfirst, -⟩ := series_givenOut n lists
  refine ⟨hnodup, fun o ho => hfirst o.id (List.mem_map_of_mem ho), fun i d j k hj hk => ?_⟩
  have hsame : occurrences[j].id = occurrences[k].id ↔ j = k := by
    have hj' : j < (occurrences.map Occurrence.id).length := by rwa [List.length_map]
    have hk' : k < (occurrences.map Occurrence.id).length := by rwa [List.length_map]
    have hinj : (occurrences.map Occurrence.id)[j] = (occurrences.map Occurrence.id)[k] ↔ j = k :=
      hnodup.getElem_inj_iff
    rwa [List.getElem_map, List.getElem_map] at hinj
  rw [Interpreter.note, Std.ExtTreeMap.getElem?_insert]
  simp only [Nat.compare_eq_eq, hsame]

end Parsed

end LoxLang
