import LoxLang.Proofs.Grammar.Readers

namespace LoxLang.Parse

variable {α β : Type}

/-- How an outcome compares with the tokens there were: none comes back, and success consumes at least `d`. -/
def Outcome.Consumes (before d : Nat) : Outcome α → Prop
  | .done _ s => s.tokens.length + d ≤ before
  | .failed _ s => s.tokens.length ≤ before
  | .exhausted => False

/-- With at most `n` tokens left the reader comes to an end, and success consumes at least `d` of them. -/
def Advances (x : Parse α) (n d : Nat) : Prop :=
  ∀ s : State, s.tokens.length ≤ n → (x s).Consumes s.tokens.length d

/-- Less may be claimed of an outcome, and of more tokens. -/
theorem Outcome.Consumes.mono {o : Outcome α} {before before' d d' : Nat} (h : o.Consumes before d)
    (hd : before + d' ≤ before' + d) (hb : before ≤ before') : o.Consumes before' d' := by
  cases o with
  | done a s => simp only [Consumes] at h ⊢; omega
  | failed e s => simp only [Consumes] at h ⊢; omega
  | exhausted => exact h

namespace Advances

theorem mono {x : Parse α} {n d d' : Nat} (h : Advances x n d) (hd : d' ≤ d) : Advances x n d' :=
  fun s hs => (h s hs).mono (by omega) (Nat.le_refl _)

theorem pure (a : α) (n : Nat) : Advances (pure a) n 0 := fun _ _ => Nat.le_refl _

theorem fail (cause : SyntaxError.Cause) (n d : Nat) : Advances (fail cause : Parse α) n d :=
  fun _ _ => Nat.le_refl _

/-- The second reader has only the tokens that the first has left. -/
theorem bind {x : Parse α} {f : α → Parse β} {n d e k : Nat} (hx : Advances x n d)
    (hf : ∀ a m, m + d ≤ n → Advances (f a) m e) (hk : k ≤ d + e) : Advances (x >>= f) n k := by
  intro s hs
  have h := hx s hs
  cases hxs : x s with
  | exhausted => rw [hxs] at h; exact h.elim
  | failed err s' => rw [hxs] at h; rw [bind_failed hxs]; exact h
  | done a s' =>
    rw [hxs] at h
    rw [bind_done hxs]
    simp only [Outcome.Consumes] at h
    exact (hf a s'.tokens.length (by omega) s' (Nat.le_refl _)).mono (by omega) (by omega)

/-- A step that leaves the tokens alone. -/
theorem look {x : Parse α} {f : α → Parse β} {n e : Nat}
    (hx : ∀ s, ∃ a s', x s = .done a s' ∧ s'.tokens = s.tokens) (hf : ∀ a, Advances (f a) n e) :
    Advances (x >>= f) n e := by
  intro s hs
  obtain ⟨a, s', hxs, ht⟩ := hx s
  rw [bind_done hxs, ← ht]
  exact hf a s' (ht ▸ hs)

theorem next {f : Bool → Parse β} {p : Token → Bool} {n e : Nat} (hf : ∀ b, Advances (f b) n e) :
    Advances (next p >>= f) n e :=
  .look (fun s => ⟨_, s, rfl, rfl⟩) hf

theorem freshId {f : OccurrenceId → Parse β} {n e : Nat} (hf : ∀ id, Advances (f id) n e) :
    Advances (freshId >>= f) n e :=
  .look (fun s => ⟨s.nextId, { s with nextId := s.nextId + 1 }, rfl, rfl⟩) hf

theorem current {f : Token → Parse β} {n e : Nat} (hf : ∀ t, Advances (f t) n e) :
    Advances (current >>= f) n e :=
  .look (fun s => ⟨s.current, s, rfl, rfl⟩) hf

theorem report {f : Unit → Parse β} {cause : SyntaxError.Cause} {t : Token} {n e : Nat}
    (hf : Advances (f ()) n e) : Advances (report cause t >>= f) n e :=
  .look (fun s => ⟨(), { s with errors := s.errors.push ⟨cause, t⟩ }, rfl, rfl⟩) fun _ => hf

/-- Whether a token is taken or not, what comes next advances by what is still missing. -/
theorem take? {g : Token → Option α} {f : Option α → Parse β} {n d e : Nat}
    (hsome : ∀ a m, m + 1 ≤ n → Advances (f (some a)) m d) (hnone : Advances (f none) n e)
    (he : e ≤ d + 1) : Advances (Parse.take? g >>= f) n e := by
  intro s hs
  rcases take?_cases g s with ⟨t, rest, a, ht, hg, hx⟩ | hx
  · rw [bind_done hx]
    rw [ht, List.length_cons] at hs ⊢
    exact (hsome a rest.length (by omega) { s with tokens := rest } (Nat.le_refl _)).mono
      (by simp only; omega) (by simp)
  · rw [bind_done hx]
    exact hnone s hs

theorem accept? {p : Token → Bool} {f : Option Token → Parse β} {n d e : Nat}
    (hsome : ∀ t m, m + 1 ≤ n → Advances (f (some t)) m d) (hnone : Advances (f none) n e)
    (he : e ≤ d + 1) : Advances (Parse.accept? p >>= f) n e :=
  .take? hsome hnone he

theorem accept {p : Token → Bool} {f : Bool → Parse β} {n d e : Nat}
    (htrue : ∀ m, m + 1 ≤ n → Advances (f true) m d) (hfalse : Advances (f false) n e)
    (he : e ≤ d + 1) : Advances (accept p >>= f) n e := by
  rw [accept_bind]
  exact .accept? (fun _ m hm => htrue m hm) hfalse he

/-- The token that has to come is consumed, so there is at most one less for what comes next. -/
theorem expect {p : Token → Bool} {cause : SyntaxError.Cause} {f : Token → Parse β} {n d e : Nat}
    (hf : ∀ t m, m + 1 ≤ n → Advances (f t) m d) (he : e ≤ d + 1) :
    Advances (expect p cause >>= f) n e := by
  rw [expect_bind]
  exact .accept? hf (.fail cause n e) he

end Advances

/-- The levels below, each of them two calls. -/
def depth : Level → Nat
  | .or => 10
  | .and => 8
  | .equality => 6
  | .comparison => 4
  | .term => 2
  | .factor => 0

/-- A level is two calls further from the expressions than the next one. -/
theorem depth_tighter {l tighter : Level} (h : l.tighter? = some tighter) :
    depth l = depth tighter + 2 := by
  cases l <;> cases h <;> rfl

/-- What all readers of expressions do with at most `n` tokens left, given enough fuel. -/
structure ExprAdvances (fuel : Nat) : Prop where
  expression : ∀ n, 32 * n + 18 ≤ fuel → Advances (expression fuel) n 1
  ternary : ∀ n, 32 * n + 17 ≤ fuel → Advances (ternary fuel) n 1
  binary : ∀ n l, 32 * n + depth l + 6 ≤ fuel → Advances (binary fuel l) n 1
  operand : ∀ n l, 32 * n + depth l + 5 ≤ fuel → Advances (operand fuel l) n 1
  chain : ∀ n l e, 32 * n + 1 ≤ fuel → Advances (chain fuel l e) n 0
  unary : ∀ n, 32 * n + 4 ≤ fuel → Advances (unary fuel) n 1
  suffixes : ∀ n e, 32 * n + 1 ≤ fuel → Advances (suffixes fuel e) n 0
  arguments : ∀ n, 32 * n + 20 ≤ fuel → Advances (arguments fuel) n 0
  argumentsFrom : ∀ n count, 32 * n + 19 ≤ fuel → Advances (argumentsFrom fuel count) n 1
  primary : ∀ n, 32 * n + 3 ≤ fuel → Advances (primary fuel) n 1

theorem depth_le (l : Level) : depth l ≤ 10 := by cases l <;> decide

theorem assignment_advances (target : Expr) (equals : Token) (value : Expr) (n : Nat) :
    Advances (assignment target equals value) n 0 := by
  unfold assignment
  split
  · exact .freshId fun _ => .pure _ n
  · exact .pure _ n
  · exact .report (.pure _ n)

/-- By induction on fuel. Each reader calls others that need less of it, or has consumed a token by then. -/
theorem exprAdvances (fuel : Nat) : ExprAdvances fuel := by
  induction fuel with
  | zero => constructor <;> intros <;> omega
  | succ fuel ih =>
    constructor
    case expression =>
      intro n hn
      unfold expression
      refine .bind (e := 0) (ih.ternary n (by omega)) (fun target m hm => ?_) (Nat.le_refl 1)
      refine .accept? (d := 0) (fun equals k hk => ?_) (.pure _ m) (Nat.zero_le _)
      exact .bind (ih.expression k (by omega)) (fun value j hj => assignment_advances _ _ _ j)
        (Nat.zero_le _)
    case ternary =>
      intro n hn
      unfold ternary
      refine .bind (e := 0) (ih.binary n .or (by simp only [depth]; omega)) (fun c m hm => ?_)
        (Nat.le_refl 1)
      refine .accept (d := 0) (fun k hk => ?_) (.pure _ m) (Nat.zero_le _)
      refine .bind (e := 0) (ih.ternary k (by omega)) (fun a j hj => ?_) (Nat.zero_le _)
      refine .expect (d := 0) (fun colon i hi => ?_) (Nat.zero_le _)
      exact .bind (ih.ternary i (by omega)) (fun b h hh => .pure _ h) (Nat.zero_le _)
    case binary =>
      intro n l hn
      unfold binary
      exact .bind (ih.operand n l (by omega)) (fun left m hm => ih.chain m l left (by omega))
        (Nat.le_refl 1)
    case operand =>
      intro n l hn
      unfold operand
      split
      · next tighter h => exact ih.binary n tighter (by have := depth_tighter h; omega)
      · exact ih.unary n (by omega)
    case chain =>
      intro n l left hn
      unfold chain
      refine .accept? (d := 0) (fun operator m hm => ?_) (.pure _ n) (Nat.zero_le _)
      have := depth_le l
      exact .bind (ih.operand m l (by omega)) (fun right k hk => ih.chain k l _ (by omega))
        (Nat.zero_le _)
    case unary =>
      intro n hn
      unfold unary
      refine .accept? (d := 0) (fun operator m hm => ?_) ?_ (Nat.le_refl 1)
      · exact .bind (ih.unary m (by omega)) (fun right k hk => .pure _ k) (Nat.zero_le _)
      · exact .bind (ih.primary n (by omega)) (fun callee m hm => ih.suffixes m callee (by omega))
          (Nat.le_refl 1)
    case suffixes =>
      intro n callee hn
      unfold suffixes
      refine .accept (d := 0) (fun m hm => ?_) ?_ (Nat.zero_le _)
      · refine .bind (e := 0) (ih.arguments m (by omega)) (fun given k hk => ?_) (Nat.zero_le _)
        exact .expect (fun paren j hj => ih.suffixes j _ (by omega)) (Nat.zero_le _)
      · refine .accept (d := 0) (fun m hm => ?_) (.pure _ n) (Nat.zero_le _)
        exact .expect (fun name k hk => ih.suffixes k _ (by omega)) (Nat.zero_le _)
    case arguments =>
      intro n hn
      unfold arguments
      refine .next fun b => ?_
      split
      · exact .pure _ n
      · exact (ih.argumentsFrom n 0 (by omega)).mono (Nat.zero_le _)
    case argumentsFrom =>
      intro n count hn
      have hrest : Advances (commas (expression fuel) (argumentsFrom fuel (count + 1))) n 1 := by
        refine .bind (e := 0) (ih.expression n (by omega)) (fun first m hm => ?_) (Nat.le_refl 1)
        refine .accept (d := 0) (fun k hk => ?_) (.pure _ m) (Nat.zero_le _)
        exact .bind (ih.argumentsFrom k _ (by omega)) (fun rest j hj => .pure _ j) (Nat.zero_le _)
      unfold argumentsFrom
      split
      · exact .current fun t => .report hrest
      · exact hrest
    case primary =>
      intro n hn
      unfold primary
      refine .take? (d := 0) (fun value m hm => .pure _ m) ?_ (Nat.le_refl 1)
      refine .accept? (d := 0) (fun keyword m hm => .freshId fun id => .pure _ m) ?_ (Nat.le_refl 1)
      refine .accept? (d := 0) (fun name m hm => .freshId fun id => .pure _ m) ?_ (Nat.le_refl 1)
      refine .accept (d := 0) (fun m hm => ?_) (.fail _ n 1) (Nat.le_refl 1)
      refine .bind (e := 0) (ih.expression m (by omega)) (fun inner k hk => ?_) (Nat.zero_le _)
      exact .expect (d := 0) (fun paren j hj => .pure _ j) (Nat.zero_le _)

theorem Advances.map {x : Parse α} {f : α → β} {n d : Nat} (hx : Advances x n d) :
    Advances (f <$> x) n d := by
  rw [← bind_pure_comp]
  exact .bind hx (fun a m _ => .pure _ m) (Nat.le_refl d)

/-- Each parameter is a token at least. -/
theorem parametersFrom_advances (fuel : Nat) :
    ∀ n count, 32 * n + 1 ≤ fuel → Advances (parametersFrom fuel count) n 1 := by
  induction fuel with
  | zero => intros; omega
  | succ fuel ih =>
    intro n count hn
    have hrest :
        Advances (commas (expect Token.isIdentifier .parameterName) (parametersFrom fuel (count + 1))) n 1 := by
      refine .expect (d := 0) (fun first m hm => ?_) (Nat.le_refl 1)
      refine .accept (d := 0) (fun k hk => ?_) (.pure _ m) (Nat.zero_le _)
      exact .bind (e := 0) (ih k _ (by omega)) (fun rest j hj => .pure _ j) (Nat.zero_le _)
    unfold parametersFrom
    split
    · exact .current fun t => .report hrest
    · exact hrest

theorem parameters_advances {fuel n : Nat} (hn : 32 * n + 1 ≤ fuel) :
    Advances (parameters fuel) n 0 := by
  refine .next fun b => ?_
  split
  · exact .pure _ n
  · exact (parametersFrom_advances fuel n 0 hn).mono (Nat.zero_le _)

theorem expressionUnless_advances {fuel n : Nat} {p : Token → Bool} (hn : 32 * n + 18 ≤ fuel) :
    Advances (expressionUnless fuel p) n 0 := by
  refine .next fun b => ?_
  split
  · exact .pure _ n
  · exact .map (((exprAdvances fuel).expression n hn).mono (Nat.zero_le _))

/-- An expression with the token that has to follow it. -/
theorem expressionThen_advances {fuel n : Nat} {p : Token → Bool} {cause : SyntaxError.Cause}
    {f : Expr → Stmt} (hn : 32 * n + 18 ≤ fuel) :
    Advances (do
      let value ← expression fuel
      let _ ← expect p cause
      pure (f value)) n 1 := by
  refine .bind (e := 0) ((exprAdvances fuel).expression n hn) (fun value m hm => ?_) (Nat.le_refl 1)
  exact .expect (d := 0) (fun semicolon k hk => .pure _ k) (Nat.zero_le _)

theorem varDeclaration_advances {fuel n : Nat} (hn : 32 * n ≤ fuel) :
    Advances (varDeclaration fuel) n 1 := by
  refine .expect (d := 0) (fun name m hm => ?_) (Nat.le_refl 1)
  refine .accept (d := 0) (fun k hk => ?_) ?_ (Nat.zero_le _)
  · exact (expressionThen_advances (by omega)).mono (Nat.zero_le _)
  · exact .expect (d := 0) (fun semicolon k hk => .pure _ k) (Nat.zero_le _)

theorem returnStatement_advances {fuel n : Nat} {keyword : Token} (hn : 32 * n + 18 ≤ fuel) :
    Advances (returnStatement fuel keyword) n 0 := by
  refine .bind (e := 0) (expressionUnless_advances hn) (fun value m hm => ?_) (Nat.le_refl 0)
  exact .expect (d := 0) (fun semicolon k hk => .pure _ k) (Nat.zero_le _)

theorem breakStatement_advances (keyword : Token) (n : Nat) :
    Advances (breakStatement keyword) n 0 :=
  .expect (d := 0) (fun _ k _ => .pure _ k) (Nat.zero_le _)

theorem forInitializer_advances {fuel n : Nat} (hn : 32 * n + 18 ≤ fuel) :
    Advances (forInitializer fuel) n 1 := by
  refine .accept (d := 0) (fun m hm => .pure _ m) ?_ (Nat.le_refl 1)
  refine .accept (d := 1) (fun m hm => .map (varDeclaration_advances (by omega))) ?_ (by omega)
  exact .map (expressionThen_advances hn)

/-- Resuming takes a token away, so recovery comes to an end. -/
theorem resume_length_lt {ts : List Token} (h : ts ≠ []) : (resume ts).length < ts.length := by
  induction ts with
  | nil => exact (h rfl).elim
  | cons t rest ih =>
    unfold resume
    split
    · simp
    · cases rest with
      | nil => simp [resume]
      | cons u rest =>
        have := ih (by simp)
        simp only [List.length_cons] at this ⊢
        omega

/-- Where a token is left, recovery succeeds and consumes one, whatever becomes of the declaration. -/
theorem recover_advances {x : Parse Stmt} {n : Nat} {s : State} (hx : Advances x n 1)
    (hs : s.tokens.length ≤ n) (ht : s.tokens ≠ []) : (recover x s).Consumes s.tokens.length 1 := by
  have h := hx s hs
  cases hxs : x s with
  | exhausted => rw [hxs] at h; exact h.elim
  | done a s' => rw [hxs] at h; simpa [recover, hxs, Outcome.Consumes] using h
  | failed e s' =>
    rw [hxs] at h
    simp only [Outcome.Consumes] at h
    simp only [recover, hxs, Outcome.Consumes]
    have hpos := List.length_pos_iff.mpr ht
    by_cases he : s'.tokens = []
    · simp only [he, resume, List.length_nil]; omega
    · have := resume_length_lt he; omega

/-- What all readers of statements do with at most `n` tokens left, given enough fuel. -/
structure StmtAdvances (fuel : Nat) : Prop where
  declarations : ∀ n b, 32 * n + 21 ≤ fuel → Advances (declarations fuel b) n 0
  declaration : ∀ n, 32 * n + 20 ≤ fuel → Advances (declaration fuel) n 1
  classDeclaration : ∀ n, 32 * n + 1 ≤ fuel → Advances (classDeclaration fuel) n 0
  methods : ∀ n, 32 * n + 2 ≤ fuel → Advances (methods fuel) n 0
  function : ∀ n c, 32 * n + 1 ≤ fuel → Advances (function fuel c) n 1
  block : ∀ n, 32 * n + 22 ≤ fuel → Advances (block fuel) n 0
  statement : ∀ n, 32 * n + 19 ≤ fuel → Advances (statement fuel) n 1
  forStatement : ∀ n, 32 * n + 1 ≤ fuel → Advances (forStatement fuel) n 0
  ifStatement : ∀ n, 32 * n + 1 ≤ fuel → Advances (ifStatement fuel) n 0
  whileStatement : ∀ n, 32 * n + 1 ≤ fuel → Advances (whileStatement fuel) n 0

/-- By induction on fuel, from the readers of expressions. -/
theorem stmtAdvances (fuel : Nat) : StmtAdvances fuel := by
  induction fuel with
  | zero => constructor <;> intros <;> omega
  | succ fuel ih =>
    constructor
    case declarations =>
      intro n b hn s hs
      unfold declarations
      have hend : atEnd b s = .done (s.tokens.isEmpty || b && s.tokens.head?.any (·.isMark .rightBrace)) s :=
        rfl
      rw [bind_done hend]
      split
      · exact Nat.le_refl _
      · next hnot =>
        have ht : s.tokens ≠ [] := by
          rintro he
          simp [he] at hnot
        have hr := recover_advances (ih.declaration n (by omega)) hs ht
        cases hx : recover (declaration fuel) s with
        | exhausted => rw [hx] at hr; exact hr.elim
        | failed e s' => rw [hx] at hr; rw [bind_failed hx]; exact hr
        | done first s' =>
          rw [hx] at hr
          simp only [Outcome.Consumes] at hr
          rw [bind_done hx]
          have hrest := ih.declarations s'.tokens.length b (by omega)
          refine Outcome.Consumes.mono (Advances.bind (e := 0) hrest (fun rest m _ => .pure _ m)
            (Nat.le_refl 0) s' (Nat.le_refl _)) ?_ ?_ <;> omega
    case declaration =>
      intro n hn
      unfold declaration
      refine .accept (d := 0) (fun m hm => ih.classDeclaration m (by omega)) ?_ (Nat.le_refl 1)
      refine .accept (d := 1) (fun m hm => .map (ih.function m _ (by omega))) ?_ (by omega)
      refine .accept (d := 1) (fun m hm => varDeclaration_advances (by omega)) ?_ (by omega)
      exact ih.statement n (by omega)
    case classDeclaration =>
      intro n hn
      unfold classDeclaration
      refine .expect (d := 0) (fun name m hm => ?_) (Nat.zero_le _)
      refine .expect (d := 0) (fun left k hk => ?_) (Nat.zero_le _)
      refine .bind (e := 0) (ih.methods k (by omega)) (fun declared j hj => ?_) (Nat.zero_le _)
      exact .expect (d := 0) (fun right i hi => .pure _ i) (Nat.zero_le _)
    case methods =>
      intro n hn
      unfold methods
      refine .look (fun s => ⟨_, s, rfl, rfl⟩) fun b => ?_
      split
      · exact .pure _ n
      · refine .bind (e := 0) (ih.function n _ (by omega)) (fun first m hm => ?_) (Nat.zero_le _)
        exact .bind (e := 0) (ih.methods m (by omega)) (fun rest k hk => .pure _ k) (Nat.zero_le _)
    case function =>
      intro n c hn
      unfold function
      refine .expect (d := 0) (fun name m hm => ?_) (Nat.le_refl 1)
      refine .expect (d := 0) (fun left k hk => ?_) (Nat.zero_le _)
      refine .bind (e := 0) (parameters_advances (by omega)) (fun declared j hj => ?_) (Nat.zero_le _)
      refine .expect (d := 0) (fun right i hi => ?_) (Nat.zero_le _)
      refine .expect (d := 0) (fun brace h hh => ?_) (Nat.zero_le _)
      exact .bind (e := 0) (ih.block h (by omega)) (fun body g hg => .pure _ g) (Nat.zero_le _)
    case block =>
      intro n hn
      unfold block
      refine .bind (e := 0) (ih.declarations n true (by omega)) (fun body m hm => ?_) (Nat.zero_le _)
      exact .expect (d := 0) (fun right k hk => .pure _ k) (Nat.zero_le _)
    case statement =>
      intro n hn
      unfold statement
      refine .accept (d := 0) (fun m hm => ih.forStatement m (by omega)) ?_ (Nat.le_refl 1)
      refine .accept (d := 0) (fun m hm => ih.ifStatement m (by omega)) ?_ (Nat.le_refl 1)
      refine .accept (d := 1) (fun m hm => expressionThen_advances (by omega)) ?_ (by omega)
      refine .accept? (d := 0) (fun keyword m hm => returnStatement_advances (by omega)) ?_ (Nat.le_refl 1)
      refine .accept (d := 0) (fun m hm => ih.whileStatement m (by omega)) ?_ (Nat.le_refl 1)
      refine .accept? (d := 0) (fun keyword m hm => breakStatement_advances _ m) ?_ (Nat.le_refl 1)
      refine .accept (d := 0) (fun m hm => .map (ih.block m (by omega))) ?_ (Nat.le_refl 1)
      exact expressionThen_advances (by omega)
    case forStatement =>
      intro n hn
      unfold forStatement
      refine .expect (d := 0) (fun left m hm => ?_) (Nat.zero_le _)
      refine .bind (e := 0) (forInitializer_advances (by omega)) (fun start k hk => ?_) (Nat.zero_le _)
      refine .bind (e := 0) (expressionUnless_advances (by omega)) (fun c j hj => ?_) (Nat.zero_le _)
      refine .expect (d := 0) (fun semicolon i hi => ?_) (Nat.zero_le _)
      refine .bind (e := 0) (expressionUnless_advances (by omega)) (fun increment h hh => ?_)
        (Nat.zero_le _)
      refine .expect (d := 0) (fun right g hg => ?_) (Nat.zero_le _)
      exact .bind (e := 0) (ih.statement g (by omega)) (fun body f hf => .pure _ f) (Nat.zero_le _)
    case ifStatement =>
      intro n hn
      unfold ifStatement
      refine .expect (d := 0) (fun left m hm => ?_) (Nat.zero_le _)
      refine .bind (e := 0) ((exprAdvances fuel).expression m (by omega)) (fun c k hk => ?_)
        (Nat.zero_le _)
      refine .expect (d := 0) (fun right j hj => ?_) (Nat.zero_le _)
      refine .bind (e := 0) (ih.statement j (by omega)) (fun yes i hi => ?_) (Nat.zero_le _)
      refine .accept (d := 0) (fun h hh => ?_) (.pure _ i) (Nat.zero_le _)
      exact .bind (e := 0) (ih.statement h (by omega)) (fun no g hg => .pure _ g) (Nat.zero_le _)
    case whileStatement =>
      intro n hn
      unfold whileStatement
      refine .expect (d := 0) (fun left m hm => ?_) (Nat.zero_le _)
      refine .bind (e := 0) ((exprAdvances fuel).expression m (by omega)) (fun c k hk => ?_)
        (Nat.zero_le _)
      refine .expect (d := 0) (fun right j hj => ?_) (Nat.zero_le _)
      exact .bind (e := 0) (ih.statement j (by omega)) (fun body i hi => .pure _ i) (Nat.zero_le _)

/-- Declarations report what stops them and are never stopped themselves. -/
theorem declarations_not_failed (fuel : Nat) (b : Bool) (s s' : State) (e : SyntaxError) :
    declarations fuel b s ≠ .failed e s' := by
  induction fuel generalizing s s' e with
  | zero => simp [declarations, exhausted]
  | succ fuel ih =>
    unfold declarations
    rw [bind_done (rfl : atEnd b s = .done _ s)]
    split
    · simp
    · cases hx : recover (declaration fuel) s with
      | exhausted => rw [bind_exhausted hx]; simp
      | failed e' s'' =>
        unfold recover at hx
        split at hx <;> cases hx
      | done first s'' =>
        rw [bind_done hx]
        cases hr : declarations fuel b s'' with
        | exhausted => rw [bind_exhausted hr]; simp
        | failed e' t => exact absurd hr (ih s'' t e')
        | done rest t => rw [bind_done hr]; simp

/-- Reading a program comes to an end with statements. -/
theorem declarations_done {fuel : Nat} (b : Bool) (s : State) (h : 32 * s.tokens.length + 21 ≤ fuel) :
    ∃ statements s', declarations fuel b s = .done statements s' := by
  have hc := (stmtAdvances fuel).declarations _ b h s (Nat.le_refl _)
  cases hd : declarations fuel b s with
  | done statements s' => exact ⟨statements, s', rfl⟩
  | failed e s' => exact absurd hd (declarations_not_failed fuel b s s' e)
  | exhausted => rw [hd] at hc; exact hc.elim

end LoxLang.Parse
