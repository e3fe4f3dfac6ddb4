import LoxLang.Proofs.Grammar.Soundness
import LoxLang.Proofs.Tree.Relabel

namespace LoxLang.Parse
open Grammar

variable {α β : Type}

/-- The state with other tokens to read and another identity to give out next. -/
def State.on (s : State) (tokens : List Token) (nextId : OccurrenceId) : State :=
  { s with tokens := tokens, nextId := nextId }

section

variable {s : State} {t : Token} {p : Token → Bool} {w rest : List Token} {n : OccurrenceId}

/-- A token of the kind asked for is consumed, and what comes after it is read. -/
theorem accept?_taken {f : Option Token → Parse β} (h : p t = true) :
    (accept? p >>= f) (s.on (t :: rest) n) = f (some t) (s.on rest n) :=
  bind_done (take?_some rfl (by simp [h]))

theorem accept?_left {f : Option Token → Parse β} (h : ∀ t ∈ w.head?, p t = false) :
    (accept? p >>= f) (s.on w n) = f none (s.on w n) :=
  bind_done (take?_none fun t ht => by simp [h t ht])

theorem accept_taken {f : Bool → Parse β} (h : p t = true) :
    (accept p >>= f) (s.on (t :: rest) n) = f true (s.on rest n) := by
  rw [accept_bind, accept?_taken h]
  rfl

/-- A reader of a token that is not there leaves everything as it is. At the end nothing is there either. -/
theorem accept_left {f : Bool → Parse β} (h : ∀ t ∈ w.head?, p t = false) :
    (accept p >>= f) (s.on w n) = f false (s.on w n) := by
  rw [accept_bind, accept?_left h]
  rfl

/-- The token that has to come is there, so its error does not arise. -/
theorem expect_taken {f : Token → Parse β} {cause : SyntaxError.Cause} (h : p t = true) :
    (expect p cause >>= f) (s.on (t :: rest) n) = f t (s.on rest n) := by
  rw [expect_bind, accept?_taken h]
  rfl

theorem next_false {f : Bool → Parse β} (h : ∀ t ∈ w.head?, p t = false) :
    (next p >>= f) (s.on w n) = f false (s.on w n) := by
  refine bind_done (a := false) ?_
  cases w with
  | nil => rfl
  | cons t u => simp [next, State.on, h t rfl]

theorem next_true {f : Bool → Parse β} (h : p t = true) :
    (next p >>= f) (s.on (t :: rest) n) = f true (s.on (t :: rest) n) :=
  bind_done (a := true) (by simp [next, State.on, h])

end

/-- The answer is as told, unless fuel runs out. -/
def Outcome.Gives (o : Outcome α) (a : α) (s : State) : Prop := o = .exhausted ∨ o = .done a s

theorem Outcome.Gives.done (a : α) (s : State) : (Outcome.done a s).Gives a s := .inr rfl

theorem Outcome.Gives.bind {x : Parse α} {f : α → Parse β} {s s' s'' : State} {a : α} {b : β}
    (hx : (x s).Gives a s') (hf : (f a s').Gives b s'') : ((x >>= f) s).Gives b s'' := by
  rcases hx with hx | hx
  · exact .inl (bind_exhausted hx)
  · rwa [bind_done hx]

theorem Outcome.Gives.map {x : Parse α} {s s' : State} {a : α} (f : α → β) (hx : (x s).Gives a s') :
    ((f <$> x) s).Gives (f a) s' := by
  rw [← bind_pure_comp]
  exact .bind hx (.done _ _)

/-- The levels of the operators that bind tighter. -/
def below : Level → List Level
  | .or => [.and, .equality, .comparison, .term, .factor]
  | .and => [.equality, .comparison, .term, .factor]
  | .equality => [.comparison, .term, .factor]
  | .comparison => [.term, .factor]
  | .term => [.factor]
  | .factor => []

/-- The levels below one are the next one and those below that. -/
theorem below_tighter {l tighter : Level} (h : l.tighter? = some tighter) :
    below l = tighter :: below tighter := by
  cases l <;> cases h <;> rfl

def joins (ls : List Level) (k : Token.Kind) : Bool := ls.any fun l => l.kinds.contains k

def extendsCall (k : Token.Kind) : Bool := k == .mark .leftParen || k == .mark .dot

/-- A token of this kind after an expression of the rule would be read on. -/
def absorbs : ExprRule → Token.Kind → Bool
  | .assignment, k => k == .mark .equal || k == .mark .question || joins (.or :: below .or) k || extendsCall k
  | .ternary, k => k == .mark .question || joins (.or :: below .or) k || extendsCall k
  | .binary l, k => joins (l :: below l) k || extendsCall k
  | .operand l, k => joins (below l) k || extendsCall k
  | .unary, k => extendsCall k
  | .call, k => extendsCall k
  | .primary, _ => false

/-- Nothing comes that would be read on. -/
def Stops (r : ExprRule) (rest : List Token) : Prop := ∀ t ∈ rest.head?, absorbs r t.kind = false

/-- A rule that would read on in fewer cases stops wherever the other does. -/
theorem Stops.mono {r r' : ExprRule} {rest : List Token} (h : Stops r rest)
    (hi : ∀ k, absorbs r k = false → absorbs r' k = false) : Stops r' rest :=
  fun t ht => hi _ (h t ht)

theorem stops_cons {r : ExprRule} {t : Token} {rest : List Token} {k : Token.Kind} (ht : t.kind = k)
    (h : absorbs r k = false) : Stops r (t :: rest) := by
  rintro u ⟨⟩
  rw [ht, h]

/-- An operand ends before an operator of its own level. This is where the operators of a level associate to the left.
-/
theorem stops_operator {l : Level} {t : Token} {rest : List Token} (h : t.kind ∈ l.kinds) :
    Stops (.operand l) (t :: rest) := by
  rintro u ⟨⟩
  generalize t.kind = k at h
  cases l <;> simp only [Level.kinds, List.mem_cons, List.not_mem_nil, or_false] at h
  all_goals rcases h with rfl | rfl | rfl | rfl <;> rfl

def beginsPrimary : Token.Kind → Bool
  | .mark .leftParen => true
  | .keyword .true_ => true
  | .keyword .false_ => true
  | .keyword .nil_ => true
  | .keyword .this_ => true
  | .identifier => true
  | .number _ => true
  | .string _ => true
  | _ => false

/-- An expression of the rule may begin with a token of this kind. -/
def begins : ExprRule → Token.Kind → Bool
  | .call, k => beginsPrimary k
  | .primary, k => beginsPrimary k
  | _, k => beginsPrimary k || k == .mark .bang || k == .mark .minus

/-- Whatever begins a call begins an expression of any rule. -/
theorem begins_of_call {r : ExprRule} {k : Token.Kind} (h : begins .call k = true) :
    begins r k = true := by
  cases r <;> simp_all [begins]

/-- There is a first token, of a kind that satisfies the condition. -/
def Heads (w : List Token) (p : Token.Kind → Bool) : Prop := ∃ t u, w = t :: u ∧ p t.kind = true

/-- What comes after them does not matter to the first token. -/
theorem Heads.append {w : List Token} {p : Token.Kind → Bool} (h : Heads w p) (v : List Token) :
    Heads (w ++ v) p := by
  obtain ⟨t, u, rfl, ht⟩ := h
  exact ⟨t, u ++ v, rfl, ht⟩

theorem Heads.mono {w : List Token} {p q : Token.Kind → Bool} (h : Heads w p)
    (hi : ∀ k, p k = true → q k = true) : Heads w q := by
  obtain ⟨t, u, rfl, ht⟩ := h
  exact ⟨t, u, rfl, hi _ ht⟩

/-- What is asked of tokens that cannot be first is not met by the first token. -/
theorem Heads.not {w : List Token} {p : Token.Kind → Bool} (h : Heads w p) {q : Token → Bool}
    (hq : ∀ t : Token, p t.kind = true → q t = false) : ∀ t ∈ w.head?, q t = false := by
  obtain ⟨t, u, rfl, ht⟩ := h
  rintro _ ⟨⟩
  exact hq t ht

/-- A literal begins a primary. -/
theorem literal?_begins {t : Token} {value : Literal} (h : literal? t = some value) :
    beginsPrimary t.kind = true := by
  unfold literal? at h
  split at h <;> simp_all [beginsPrimary]

/-- An expression has a first token, of a kind that its rule allows. Readers decide by it alone. -/
theorem reads_heads {r : ExprRule} {w : List Token} {e : Expr} : ReadsExpr r w e → Heads w (begins r)
  | .assignVariable hn _ _ => ⟨_, _, rfl, by rw [hn]; rfl⟩
  | .assignProperty h _ _ _ _ => ((reads_heads h).mono fun _ => begins_of_call).append _
  | .assignmentTernary h | .ternaryBinary h | .binaryOperand h | .operandBinary _ h
  | .operandUnary _ h | .callPrimary h => (reads_heads h).mono fun _ h => h
  | .ternary h _ _ _ _ | .binary h _ _ => (reads_heads h).append _
  | @ReadsExpr.unary t _ _ ho _ => ⟨t, _, rfl, by rcases ho with ho | ho <;> rw [ho] <;> rfl⟩
  | .unaryCall h => (reads_heads h).mono fun _ => begins_of_call
  | .call h _ _ _ | .get h _ _ => (reads_heads h).append _
  | .literal (t := t) h => ⟨t, _, rfl, literal?_begins h⟩
  | .this (t := t) h | .variable (t := t) h => ⟨t, _, rfl, by rw [h]; rfl⟩
  | @ReadsExpr.group t _ _ _ h _ _ => ⟨t, _, rfl, by rw [h]; rfl⟩

theorem someArguments_heads {w : List Token} {es : List Expr} :
    ReadsSomeArguments w es → Heads w (begins .assignment)
  | .one h => reads_heads h
  | .cons h _ _ => (reads_heads h).append _

/-- The expression is read by the rule from the tokens, with identities from `n` on and before `n'`. A chain of
operators or suffixes is only read up to the point where it may go on. -/
def Completes (w : List Token) (n : OccurrenceId) (e : Expr) (n' : OccurrenceId) : ExprRule → Prop
  | .assignment => ∀ (s : State) fuel rest, Stops .assignment rest →
    (expression fuel (s.on (w ++ rest) n)).Gives e (s.on rest n')
  | .ternary => ∀ (s : State) fuel rest, Stops .ternary rest →
    (ternary fuel (s.on (w ++ rest) n)).Gives e (s.on rest n')
  | .binary l => ∀ (s : State) fuel rest, Stops (.operand l) rest →
    ∃ fuel', binary fuel l (s.on (w ++ rest) n) = chain fuel' l e (s.on rest n')
  | .operand l => ∀ (s : State) fuel rest, Stops (.operand l) rest →
    (operand fuel l (s.on (w ++ rest) n)).Gives e (s.on rest n')
  | .unary => ∀ (s : State) fuel rest, Stops .unary rest →
    (unary fuel (s.on (w ++ rest) n)).Gives e (s.on rest n')
  | .call => ∀ (s : State) fuel rest,
    ∃ fuel', (primary fuel >>= suffixes fuel) (s.on (w ++ rest) n) = suffixes fuel' e (s.on rest n')
  | .primary => ∀ (s : State) fuel rest, (primary fuel (s.on (w ++ rest) n)).Gives e (s.on rest n')

/-- For a whole level, what an operand and the chain after it come to. -/
theorem Completes.binary {w rest : List Token} {n n' : OccurrenceId} {e : Expr} {l : Level}
    (h : Completes w n e n' (.binary l)) (s : State) (fuel : Nat) (hr : Stops (.binary l) rest) :
    (binary fuel l (s.on (w ++ rest) n)).Gives e (s.on rest n') := by
  have hl : ∀ t ∈ rest.head?, l.isOperator t = false := by
    intro t ht
    have h := hr t ht
    simp only [absorbs, joins, List.any_cons, Bool.or_eq_false_iff] at h
    exact h.1.1
  obtain ⟨fuel', hf⟩ := h s fuel rest (hr.mono fun k => by simp +contextual [absorbs, joins])
  rw [hf]
  cases fuel' with
  | zero => exact .inl rfl
  | succ fuel' =>
    unfold chain
    rw [accept?_left hl]
    exact .done _ _

/-- For a call, what a primary and the suffixes after it come to. -/
theorem Completes.call {w rest : List Token} {n n' : OccurrenceId} {e : Expr}
    (h : Completes w n e n' .call) (s : State) (fuel : Nat) (hr : Stops .call rest) :
    ((primary fuel >>= suffixes fuel) (s.on (w ++ rest) n)).Gives e (s.on rest n') := by
  obtain ⟨fuel', hf⟩ := h s fuel rest
  rw [hf]
  cases fuel' with
  | zero => exact .inl rfl
  | succ fuel' =>
    unfold suffixes
    rw [accept_left fun t ht => ?_, if_neg (by simp), accept_left fun t ht => ?_, if_neg (by simp)]
    · exact .done _ _
    all_goals
      have h := hr t ht
      simp only [absorbs, extendsCall, Bool.or_eq_false_iff] at h
      simp [Token.isMark, h]

/-- The identities in an expression. -/
def ids (e : Expr) : List OccurrenceId := e.occurrences.map Occurrence.id

/-- Whatever identity is next, the tokens are read as the expression with identities of its own. -/
def ReadBack (r : ExprRule) (w : List Token) (e : Expr) : Prop :=
  ∀ n, ∃ e' n', e'.erased = e.erased ∧ GivenOut n n' (ids e') ∧ Completes w n e' n' r

namespace ReadBack

theorem literal {t : Token} {value : Literal} (h : literal? t = some value) :
    ReadBack .primary [t] (.literal value) := by
  refine fun n => ⟨.literal value, n, rfl, .nil n, fun s fuel rest => ?_⟩
  cases fuel with
  | zero => exact .inl rfl
  | succ fuel =>
    unfold primary
    exact .inr (bind_done (take?_some rfl h))

theorem this {id : OccurrenceId} {t : Token} (h : t.kind = .keyword .this_) :
    ReadBack .primary [t] (.this id t) := by
  refine fun n => ⟨.this n t, n + 1, rfl, .one n, fun s fuel rest => ?_⟩
  cases fuel with
  | zero => exact .inl rfl
  | succ fuel =>
    have hl : take? literal? (s.on (t :: rest) n) = .done none (s.on (t :: rest) n) :=
      take?_none (by rintro u ⟨⟩; simp [literal?, h])
    unfold primary
    rw [List.singleton_append, bind_done hl]
    dsimp only
    rw [accept?_taken (by simp [h])]
    exact .done _ _

theorem «variable» {id : OccurrenceId} {t : Token} (h : t.kind = .identifier) :
    ReadBack .primary [t] (.variable id t) := by
  refine fun n => ⟨.variable n t, n + 1, rfl, .one n, fun s fuel rest => ?_⟩
  cases fuel with
  | zero => exact .inl rfl
  | succ fuel =>
    have hl : take? literal? (s.on (t :: rest) n) = .done none (s.on (t :: rest) n) :=
      take?_none (by rintro u ⟨⟩; simp [literal?, h])
    unfold primary
    rw [List.singleton_append, bind_done hl]
    dsimp only
    rw [accept?_left (by rintro u ⟨⟩; simp [Token.isKeyword, h])]
    dsimp only
    rw [accept?_taken (by simp [h])]
    exact .done _ _

/-- Inside parentheses anything is read up to the closing one, whatever comes behind it. -/
theorem group {left right : Token} {w : List Token} {e : Expr} (hl : left.kind = .mark .leftParen)
    (h : ReadBack .assignment w e) (hr : right.kind = .mark .rightParen) :
    ReadBack .primary (left :: (w ++ [right])) (.group e) := by
  intro n
  obtain ⟨e', n', he, hg, hc⟩ := h n
  refine ⟨.group e', n', by simpa [Expr.relabel] using he, by simpa [ids, Expr.occurrences] using hg,
    fun s fuel rest => ?_⟩
  cases fuel with
  | zero => exact .inl rfl
  | succ fuel =>
    have ht : take? literal? (s.on (left :: (w ++ [right]) ++ rest) n) = .done none _ :=
      take?_none (by rintro u ⟨⟩; simp [literal?, hl])
    unfold primary
    rw [bind_done ht]
    dsimp only
    rw [List.cons_append, accept?_left (by rintro u ⟨⟩; simp [Token.isKeyword, hl])]
    dsimp only
    rw [accept?_left (by rintro u ⟨⟩; simp [Token.isIdentifier, hl])]
    dsimp only
    rw [accept_taken (by simp [hl]), if_pos rfl, List.append_assoc]
    refine .bind (hc s fuel _ (stops_cons hr rfl)) ?_
    rw [List.singleton_append, expect_taken (by simp [hr])]
    exact .done _ _

/-- A primary is a call without suffixes. -/
theorem callPrimary {w : List Token} {e : Expr} (h : ReadBack .primary w e) : ReadBack .call w e := by
  intro n
  obtain ⟨e', n', he, hg, hc⟩ := h n
  refine ⟨e', n', he, hg, fun s fuel rest => ?_⟩
  rcases hc s fuel rest with hx | hx
  · exact ⟨0, bind_exhausted hx⟩
  · exact ⟨fuel, bind_done hx⟩

/-- One suffix more is read at the end of a chain of them, so the chain is taken apart from its end. -/
theorem get {dot name : Token} {w : List Token} {object : Expr} (h : ReadBack .call w object)
    (hd : dot.kind = .mark .dot) (hn : name.kind = .identifier) :
    ReadBack .call (w ++ [dot, name]) (.get object name) := by
  intro n
  obtain ⟨e', n', he, hg, hc⟩ := h n
  refine ⟨.get e' name, n', by simpa [Expr.relabel] using he, by simpa [ids, Expr.occurrences] using hg,
    fun s fuel rest => ?_⟩
  obtain ⟨fuel', hf⟩ := hc s fuel ([dot, name] ++ rest)
  rw [List.append_assoc, hf]
  cases fuel' with
  | zero => exact ⟨0, rfl⟩
  | succ fuel' =>
    refine ⟨fuel', ?_⟩
    conv in suffixes (fuel' + 1) e' => unfold suffixes
    rw [List.cons_append, accept_left (by rintro u ⟨⟩; simp [Token.isMark, hd]), if_neg (by simp),
      accept_taken (by simp [hd]), if_pos rfl, List.singleton_append, expect_taken (by simp [hn])]

end ReadBack

/-- The identities in a list of expressions. -/
def idsAll (es : List Expr) : List OccurrenceId := (Expr.occurrencesAll es).map Occurrence.id

/-- The tokens before a closing parenthesis are read as one argument or more, if `count` more are allowed. -/
def ReadBackSome (w : List Token) (es : List Expr) : Prop :=
  ∀ n, ∃ es' n', Expr.erasedAll es' = Expr.erasedAll es ∧ GivenOut n n' (idsAll es') ∧
    ∀ (s : State) fuel count right rest, right.kind = .mark .rightParen → count + es.length ≤ maxArity →
      (argumentsFrom fuel count (s.on (w ++ right :: rest) n)).Gives es' (s.on (right :: rest) n')

def ReadBackArguments (w : List Token) (es : List Expr) : Prop :=
  ∀ n, ∃ es' n', Expr.erasedAll es' = Expr.erasedAll es ∧ GivenOut n n' (idsAll es') ∧
    ∀ (s : State) fuel right rest, right.kind = .mark .rightParen →
      (arguments fuel (s.on (w ++ right :: rest) n)).Gives es' (s.on (right :: rest) n')

namespace ReadBackSome

theorem one {w : List Token} {e : Expr} (h : ReadBack .assignment w e) : ReadBackSome w [e] := by
  intro n
  obtain ⟨e', n', he, hg, hc⟩ := h n
  refine ⟨[e'], n', by simpa [Expr.relabelAll] using he, by simpa [idsAll, ids, Expr.occurrencesAll] using hg, ?_⟩
  intro s fuel count right rest hr hcount
  cases fuel with
  | zero => exact .inl rfl
  | succ fuel =>
    unfold argumentsFrom
    rw [if_neg (by simp only [List.length_cons, List.length_nil] at hcount; omega)]
    refine .bind (hc s fuel _ (stops_cons hr rfl)) ?_
    rw [accept_left (by rintro u ⟨⟩; simp [Token.isMark, hr]), if_neg (by simp)]
    exact .done _ _

/-- An argument ends before the comma, and the comma lets another one follow. -/
theorem cons {comma : Token} {v w : List Token} {e : Expr} {es : List Expr}
    (h : ReadBack .assignment v e) (hcomma : comma.kind = .mark .comma) (hs : ReadBackSome w es) :
    ReadBackSome (v ++ comma :: w) (e :: es) := by
  intro n
  obtain ⟨e', m, he, hg, hc⟩ := h n
  obtain ⟨es', n', hes, hgs, hcs⟩ := hs m
  refine ⟨e' :: es', n', by simp_all [Expr.relabelAll], by simpa [idsAll, ids, Expr.occurrencesAll] using hg.append hgs,
    ?_⟩
  intro s fuel count right rest hr hcount
  cases fuel with
  | zero => exact .inl rfl
  | succ fuel =>
    rw [List.length_cons] at hcount
    unfold argumentsFrom
    rw [if_neg (by omega), List.append_assoc, List.cons_append]
    refine .bind (hc s fuel _ (stops_cons hcomma rfl)) ?_
    rw [accept_taken (by simp [hcomma]), if_pos rfl]
    exact .bind (hcs s fuel (count + 1) right rest hr (by omega)) (.done _ _)

end ReadBackSome

theorem ReadBackArguments.nil : ReadBackArguments [] [] := by
  refine fun n => ⟨[], n, rfl, .nil n, fun s fuel right rest hr => ?_⟩
  cases fuel with
  | zero => exact .inl rfl
  | succ fuel =>
    unfold arguments
    rw [List.nil_append, next_true (by simp [hr]), if_pos rfl]
    exact .done _ _

/-- No more arguments are read than are allowed, so their number is never reported. -/
theorem ReadBackArguments.some {w : List Token} {es : List Expr} (hw : Heads w (begins .assignment))
    (h : ReadBackSome w es) (hl : es.length ≤ maxArity) : ReadBackArguments w es := by
  intro n
  obtain ⟨es', n', he, hg, hc⟩ := h n
  refine ⟨es', n', he, hg, fun s fuel right rest hr => ?_⟩
  cases fuel with
  | zero => exact .inl rfl
  | succ fuel =>
    have hn : ∀ t ∈ (w ++ right :: rest).head?, t.isMark .rightParen = false :=
      (hw.append _).not fun t ht => by
        simp only [Token.isMark, beq_eq_false_iff_ne]
        rintro hk
        rw [hk] at ht
        cases ht
    unfold arguments
    rw [next_false hn, if_neg (by simp)]
    exact hc s fuel 0 right rest hr (by omega)

namespace ReadBack

/-- The closing parenthesis of a call ends its arguments, and the call is located by it. -/
theorem call {left right : Token} {v w : List Token} {callee : Expr} {es : List Expr}
    (h : ReadBack .call v callee) (hl : left.kind = .mark .leftParen) (hs : ReadBackArguments w es)
    (hr : right.kind = .mark .rightParen) :
    ReadBack .call (v ++ left :: (w ++ [right])) (.call callee right es) := by
  intro n
  obtain ⟨e', m, he, hg, hc⟩ := h n
  obtain ⟨es', n', hes, hgs, hcs⟩ := hs m
  refine ⟨.call e' right es', n', by simp_all [Expr.relabel], ?_, fun s fuel rest => ?_⟩
  · simpa [ids, idsAll, Expr.occurrences] using hg.append hgs
  obtain ⟨fuel', hf⟩ := hc s fuel (left :: (w ++ [right]) ++ rest)
  rw [List.append_assoc, hf]
  cases fuel' with
  | zero => exact ⟨0, rfl⟩
  | succ fuel' =>
    conv in suffixes (fuel' + 1) e' => unfold suffixes
    rw [List.cons_append, accept_taken (by simp [hl]), if_pos rfl, List.append_assoc, List.singleton_append]
    rcases hcs s fuel' right rest hr with hx | hx
    · exact ⟨0, bind_exhausted hx⟩
    · rw [bind_done hx, expect_taken (by simp [hr])]
      exact ⟨fuel', rfl⟩

theorem unary {operator : Token} {w : List Token} {e : Expr}
    (ho : operator.kind = .mark .bang ∨ operator.kind = .mark .minus) (h : ReadBack .unary w e) :
    ReadBack .unary (operator :: w) (.unary operator e) := by
  intro n
  obtain ⟨e', n', he, hg, hc⟩ := h n
  refine ⟨.unary operator e', n', by simpa [Expr.relabel] using he,
    by simpa [ids, Expr.occurrences] using hg, fun s fuel rest hr => ?_⟩
  cases fuel with
  | zero => exact .inl rfl
  | succ fuel =>
    unfold Parse.unary
    rw [List.cons_append, accept?_taken (by simpa [isUnaryOperator] using ho)]
    exact .bind (hc s fuel rest hr) (.done _ _)

/-- Tokens that begin a call do not begin a unary operator. -/
theorem unaryCall {w : List Token} {e : Expr} (hw : Heads w (begins .call)) (h : ReadBack .call w e) :
    ReadBack .unary w e := by
  intro n
  obtain ⟨e', n', he, hg, hc⟩ := h n
  refine ⟨e', n', he, hg, fun s fuel rest hr => ?_⟩
  cases fuel with
  | zero => exact .inl rfl
  | succ fuel =>
    have hn : ∀ t ∈ (w ++ rest).head?, isUnaryOperator t = false :=
      (hw.append _).not fun t ht => by
        simp only [isUnaryOperator, Token.isMark, Bool.or_eq_false_iff, beq_eq_false_iff_ne]
        constructor <;> (rintro hk; rw [hk] at ht; cases ht)
    unfold Parse.unary
    rw [accept?_left hn]
    exact hc.call s fuel hr

theorem operandUnary {l : Level} {w : List Token} {e : Expr} (hl : l.tighter? = none)
    (h : ReadBack .unary w e) : ReadBack (.operand l) w e := by
  intro n
  obtain ⟨e', n', he, hg, hc⟩ := h n
  refine ⟨e', n', he, hg, fun s fuel rest hr => ?_⟩
  cases fuel with
  | zero => exact .inl rfl
  | succ fuel =>
    unfold operand
    rw [hl]
    exact hc s fuel rest (hr.mono fun k => by simp [absorbs])

/-- The operands of a level are expressions of the next. -/
theorem operandBinary {l tighter : Level} {w : List Token} {e : Expr} (hl : l.tighter? = some tighter)
    (h : ReadBack (.binary tighter) w e) : ReadBack (.operand l) w e := by
  intro n
  obtain ⟨e', n', he, hg, hc⟩ := h n
  refine ⟨e', n', he, hg, fun s fuel rest hr => ?_⟩
  cases fuel with
  | zero => exact .inl rfl
  | succ fuel =>
    unfold operand
    rw [hl]
    exact hc.binary s fuel (hr.mono fun k => by simp [absorbs, below_tighter hl])

/-- An operand is an expression of its level with an empty chain of operators. -/
theorem binaryOperand {l : Level} {w : List Token} {e : Expr} (h : ReadBack (.operand l) w e) :
    ReadBack (.binary l) w e := by
  intro n
  obtain ⟨e', n', he, hg, hc⟩ := h n
  refine ⟨e', n', he, hg, fun s fuel rest hr => ?_⟩
  cases fuel with
  | zero => exact ⟨0, rfl⟩
  | succ fuel =>
    unfold Parse.binary
    rcases hc s fuel rest hr with hx | hx
    · exact ⟨0, bind_exhausted hx⟩
    · exact ⟨fuel, bind_done hx⟩

theorem erased_join {l : Level} {operator : Token} {left left' right right' : Expr}
    (hl : left'.erased = left.erased) (hr : right'.erased = right.erased) :
    (l.join left' operator right').erased = (l.join left operator right).erased := by
  cases l <;> simp_all [Level.join, Expr.relabel]

/-- Identities are given out from left to right, whatever the operator. -/
theorem ids_join (l : Level) (operator : Token) (left right : Expr) :
    ids (l.join left operator right) = ids left ++ ids right := by
  cases l <;> simp [Level.join, ids, Expr.occurrences]

/-- A further operator of the level joins what stands left of it with the next operand. -/
theorem binary {l : Level} {operator : Token} {v w : List Token} {left right : Expr}
    (hl : ReadBack (.binary l) v left) (ho : operator.kind ∈ l.kinds) (hr : ReadBack (.operand l) w right) :
    ReadBack (.binary l) (v ++ operator :: w) (l.join left operator right) := by
  intro n
  obtain ⟨left', m, hel, hgl, hcl⟩ := hl n
  obtain ⟨right', n', her, hgr, hcr⟩ := hr m
  refine ⟨l.join left' operator right', n', erased_join hel her, ids_join .. ▸ hgl.append hgr,
    fun s fuel rest hstop => ?_⟩
  obtain ⟨fuel', hf⟩ := hcl s fuel (operator :: w ++ rest) (stops_operator ho)
  rw [List.append_assoc, hf]
  cases fuel' with
  | zero => exact ⟨0, rfl⟩
  | succ fuel' =>
    conv in chain (fuel' + 1) l left' => unfold chain
    rw [List.cons_append, accept?_taken (by simpa [Level.isOperator] using ho)]
    rcases hcr s fuel' rest hstop with hx | hx
    · exact ⟨0, bind_exhausted hx⟩
    · exact ⟨fuel', bind_done hx⟩

theorem ternaryBinary {w : List Token} {e : Expr} (h : ReadBack (.binary .or) w e) :
    ReadBack .ternary w e := by
  intro n
  obtain ⟨e', n', he, hg, hc⟩ := h n
  refine ⟨e', n', he, hg, fun s fuel rest hr => ?_⟩
  cases fuel with
  | zero => exact .inl rfl
  | succ fuel =>
    have hq : ∀ t ∈ rest.head?, t.isMark .question = false := by
      intro t ht
      have h := hr t ht
      simp only [absorbs, Bool.or_eq_false_iff] at h
      simp [Token.isMark, h]
    unfold Parse.ternary
    refine .bind (hc.binary s fuel (hr.mono fun k => by simp +contextual [absorbs])) ?_
    rw [accept_left hq, if_neg (by simp)]
    exact .done _ _

/-- The two branches of a ternary end before the colon and at its own end. -/
theorem ternary {question colon : Token} {u v w : List Token} {c a b : Expr}
    (hc : ReadBack (.binary .or) u c) (hq : question.kind = .mark .question) (ha : ReadBack .ternary v a)
    (hcolon : colon.kind = .mark .colon) (hb : ReadBack .ternary w b) :
    ReadBack .ternary (u ++ question :: (v ++ colon :: w)) (.ternary c a b) := by
  intro n
  obtain ⟨c', i, hec, hgc, hcc⟩ := hc n
  obtain ⟨a', j, hea, hga, hca⟩ := ha i
  obtain ⟨b', n', heb, hgb, hcb⟩ := hb j
  refine ⟨.ternary c' a' b', n', by simp_all [Expr.relabel], ?_, fun s fuel rest hr => ?_⟩
  · simpa [ids, Expr.occurrences] using hgc.append (hga.append hgb)
  cases fuel with
  | zero => exact .inl rfl
  | succ fuel =>
    unfold Parse.ternary
    rw [List.append_assoc]
    refine .bind (hcc.binary s fuel (stops_cons hq rfl)) ?_
    rw [List.cons_append, accept_taken (by simp [hq]), if_pos rfl, List.append_assoc]
    refine .bind (hca s fuel _ (stops_cons hcolon rfl)) ?_
    rw [List.cons_append, expect_taken (by simp [hcolon])]
    exact .bind (hcb s fuel rest hr) (.done _ _)

theorem assignmentTernary {w : List Token} {e : Expr} (h : ReadBack .ternary w e) :
    ReadBack .assignment w e := by
  intro n
  obtain ⟨e', n', he, hg, hc⟩ := h n
  refine ⟨e', n', he, hg, fun s fuel rest hr => ?_⟩
  cases fuel with
  | zero => exact .inl rfl
  | succ fuel =>
    have hq : ∀ t ∈ rest.head?, t.isMark .equal = false := by
      intro t ht
      have h := hr t ht
      simp only [absorbs, Bool.or_eq_false_iff] at h
      simp [Token.isMark, h]
    unfold expression
    refine .bind (hc s fuel rest (hr.mono fun k => by simp +contextual [absorbs])) ?_
    rw [accept?_left hq]
    exact .done _ _

/-- A name or a property, read as the left side that an equals sign makes it. -/
theorem ternaryCall {w : List Token} {e : Expr} (hw : Heads w (begins .call)) (h : ReadBack .call w e) :
    ReadBack .ternary w e :=
  have hf := binaryOperand (operandUnary (l := .factor) rfl (unaryCall hw h))
  have hc := binaryOperand (operandBinary rfl (binaryOperand (operandBinary rfl hf)))
  have ha := binaryOperand (operandBinary rfl (binaryOperand (operandBinary rfl hc)))
  ternaryBinary (binaryOperand (operandBinary rfl ha))

/-- A tree that is a name but for its identities is that name. -/
theorem erased_eq_variable {id : OccurrenceId} {name : Token} {e : Expr}
    (h : e.erased = Expr.erased (.variable id name)) : ∃ i, e = .variable i name := by
  cases e <;> simp [Expr.relabel] at h
  simp [h]

theorem erased_eq_get {object e : Expr} {name : Token} (h : e.erased = Expr.erased (.get object name)) :
    ∃ o, e = .get o name ∧ o.erased = object.erased := by
  cases e <;> simp [Expr.relabel] at h
  simp [h]

/-- The left side is read as an expression first, and the equals sign makes a target of it. -/
theorem assignVariable {id : OccurrenceId} {name equals : Token} {w : List Token} {value : Expr}
    (hn : name.kind = .identifier) (hq : equals.kind = .mark .equal) (h : ReadBack .assignment w value) :
    ReadBack .assignment (name :: equals :: w) (.assign id name value) := by
  intro n
  have hname : ReadsExpr .call [name] (.variable id name) := .callPrimary (.variable hn)
  have hback : ReadBack .primary [name] (.variable id name) := «variable» hn
  obtain ⟨t, m, het, hgt, hct⟩ := ternaryCall (reads_heads hname) (callPrimary hback) n
  obtain ⟨i, rfl⟩ := erased_eq_variable het
  obtain ⟨v', n', hev, hgv, hcv⟩ := h m
  refine ⟨.assign n' name v', n' + 1, by simp_all [Expr.relabel], ?_, fun s fuel rest hr => ?_⟩
  · refine (GivenOut.perm (hgv.append (.one n')) (List.perm_append_comm)).widen hgt.le
  cases fuel with
  | zero => exact .inl rfl
  | succ fuel =>
    unfold expression
    refine .bind (hct s fuel (equals :: w ++ rest) (stops_cons hq rfl)) ?_
    rw [List.cons_append, accept?_taken (by simp [hq])]
    exact .bind (hcv s fuel rest hr) (.done _ _)

/-- The property on the left side is read as an access first, and the equals sign makes a target of it. -/
theorem assignProperty {dot name equals : Token} {v w : List Token} {object value : Expr}
    (hv : Heads v (begins .call)) (ho : ReadBack .call v object) (hd : dot.kind = .mark .dot)
    (hn : name.kind = .identifier) (hq : equals.kind = .mark .equal) (h : ReadBack .assignment w value) :
    ReadBack .assignment (v ++ dot :: name :: equals :: w) (.set object name value) := by
  intro n
  obtain ⟨t, m, het, hgt, hct⟩ := ternaryCall (hv.append [dot, name]) (get ho hd hn) n
  obtain ⟨o, rfl, heo⟩ := erased_eq_get het
  obtain ⟨v', n', hev, hgv, hcv⟩ := h m
  refine ⟨.set o name v', n', by simp_all [Expr.relabel], ?_, fun s fuel rest hr => ?_⟩
  · simpa [ids, Expr.occurrences] using hgt.append hgv
  cases fuel with
  | zero => exact .inl rfl
  | succ fuel =>
    have hw : v ++ dot :: name :: equals :: w ++ rest = v ++ [dot, name] ++ (equals :: w ++ rest) := by simp
    unfold expression
    rw [hw]
    refine .bind (hct s fuel _ (stops_cons hq rfl)) ?_
    rw [List.cons_append, accept?_taken (by simp [hq])]
    exact .bind (hcv s fuel rest hr) (.done _ _)

end ReadBack

mutual

/-- Every expression that the grammar derives is read as its tree, by induction on how it is derived. -/
theorem expr_readBack {r : ExprRule} {w : List Token} {e : Expr} : ReadsExpr r w e → ReadBack r w e
  | .assignVariable hn hq h => .assignVariable hn hq (expr_readBack h)
  | .assignProperty ho hd hn hq h =>
    .assignProperty (reads_heads ho) (expr_readBack ho) hd hn hq (expr_readBack h)
  | .assignmentTernary h => .assignmentTernary (expr_readBack h)
  | .ternary hc hq ha hcolon hb =>
    .ternary (expr_readBack hc) hq (expr_readBack ha) hcolon (expr_readBack hb)
  | .ternaryBinary h => .ternaryBinary (expr_readBack h)
  | .binary hl ho hr => .binary (expr_readBack hl) ho (expr_readBack hr)
  | .binaryOperand h => .binaryOperand (expr_readBack h)
  | .operandBinary hl h => .operandBinary hl (expr_readBack h)
  | .operandUnary hl h => .operandUnary hl (expr_readBack h)
  | .unary ho h => .unary ho (expr_readBack h)
  | .unaryCall h => .unaryCall (reads_heads h) (expr_readBack h)
  | .call h hl hs hr => .call (expr_readBack h) hl (arguments_readBack hs) hr
  | .get h hd hn => .get (expr_readBack h) hd hn
  | .callPrimary h => .callPrimary (expr_readBack h)
  | .literal h => .literal h
  | .this h => .this h
  | .variable h => .variable h
  | .group hl h hr => .group hl (expr_readBack h) hr

theorem arguments_readBack {w : List Token} {es : List Expr} : ReadsArguments w es → ReadBackArguments w es
  | .nil => .nil
  | .some h hl => .some (someArguments_heads h) (someArguments_readBack h) hl

theorem someArguments_readBack {w : List Token} {es : List Expr} : ReadsSomeArguments w es → ReadBackSome w es
  | .one h => .one (expr_readBack h)
  | .cons h hc hs => .cons (expr_readBack h) hc (someArguments_readBack hs)

end

end LoxLang.Parse
