import LoxLang.Grammar.Cursor
import LoxLang.Proofs.Grammar.Programs

namespace LoxLang

namespace Cursor

open Parse (State)

/-- Where the first end is. -/
def finishAt (c : Cursor) : Nat := c.tokens.findIdx (·.kind == .finish)

/-- The cursor has not passed the first end of its tokens, and it has only moved on from look to look. -/
structure InRange (c : Cursor) : Prop where
  finishAt_lt : c.finishAt < c.tokens.length
  position_le : c.position ≤ c.finishAt
  looks_le : (c.position :: c.looks).Pairwise (· ≥ ·)

/-- What is left to read, up to the first end. -/
def state (c : Cursor) : State where
  tokens := (c.tokens.take c.finishAt).drop c.position
  finish := c.tokens[c.finishAt]?.getD ⟨.finish, "", 1⟩
  errors := c.errors
  nextId := c.nextId

/-- The cursor after a look. -/
def looked (c : Cursor) : Cursor := { c with looks := c.position :: c.looks }

/-- The cursor at the next token. -/
def moved (c : Cursor) : Cursor := { c with position := c.position + 1 }

variable {c d : Cursor} {t : Token} {rest : List Token}

@[simp]
theorem state_looked (c : Cursor) : c.looked.state = c.state := rfl

namespace InRange

theorem looked (h : c.InRange) : c.looked.InRange where
  finishAt_lt := h.finishAt_lt
  position_le := h.position_le
  looks_le := by
    have hlooks := List.pairwise_cons.mp h.looks_le
    simp only [Cursor.looked, List.pairwise_cons, List.mem_cons, forall_eq_or_imp]
    exact ⟨⟨Nat.le_refl _, hlooks.1⟩, hlooks⟩

/-- The tokens that are left lie between the cursor and the first end. -/
theorem length_left (h : c.InRange) : c.position + c.state.tokens.length = c.finishAt := by
  have hposition := h.position_le
  have hfinish := h.finishAt_lt
  simp only [state, List.length_drop, List.length_take]
  omega

/-- The end of the source is where the first end of the tokens is. -/
theorem kind_finish (h : c.InRange) : c.state.finish.kind = .finish := by
  have hlt := h.finishAt_lt
  unfold finishAt at hlt
  have hkind := List.findIdx_getElem (w := hlt)
  simpa [state, finishAt, hlt] using hkind

theorem kind_ne_finish (ht : t ∈ c.state.tokens) : t.kind ≠ .finish := by
  obtain ⟨i, hi, rfl⟩ := List.getElem_of_mem (List.mem_of_mem_drop ht)
  have hlt : i < c.tokens.findIdx (·.kind == .finish) := by
    rw [List.length_take] at hi
    exact Nat.lt_of_lt_of_le hi (Nat.min_le_left _ _)
  simpa using List.not_of_lt_findIdx hlt

/-- The token at the cursor is there, and it is the one that readers of the state look at. -/
theorem getElem?_position (h : c.InRange) : c.tokens[c.position]? = some c.state.current := by
  have hlength := h.length_left
  have hhead : c.state.tokens.head? = (c.tokens.take c.finishAt)[c.position]? := List.head?_drop
  cases hleft : c.state.tokens with
  | nil =>
    have hat : c.position = c.finishAt := by simpa [hleft] using hlength
    simp [State.current, hat, state, h.finishAt_lt]
  | cons t rest =>
    have hlt : c.position < c.finishAt := by
      rw [hleft, List.length_cons] at hlength
      omega
    rw [hleft, List.getElem?_take_of_lt hlt] at hhead
    simp [State.current, hleft, ← hhead]

/-- The end is at hand when nothing is left. -/
theorem current_isFinish (h : c.InRange) : (c.state.current.kind == .finish) = c.state.tokens.isEmpty := by
  cases hleft : c.state.tokens with
  | nil => simp [State.current, hleft, h.kind_finish]
  | cons t rest =>
    have hkind : t.kind ≠ .finish := kind_ne_finish (c := c) (by simp [hleft])
    simpa [State.current, hleft] using hkind

/-- Where a token is left, the cursor may move on. -/
theorem moved (h : c.InRange) (hleft : c.state.tokens = t :: rest) : c.moved.InRange where
  finishAt_lt := h.finishAt_lt
  position_le := by
    have hlength := h.length_left
    rw [hleft, List.length_cons] at hlength
    change c.position + 1 ≤ c.finishAt
    omega
  looks_le := by
    have hlooks := List.pairwise_cons.mp h.looks_le
    refine List.pairwise_cons.mpr ⟨fun i hi => ?_, hlooks.2⟩
    exact Nat.le_succ_of_le (hlooks.1 i hi)

/-- Moving on takes the first token away from what is left. -/
theorem state_moved (hleft : c.state.tokens = t :: rest) : c.moved.state = { c.state with tokens := rest } := by
  have htail : c.moved.state.tokens = c.state.tokens.tail := List.tail_drop.symm
  rw [hleft, List.tail_cons] at htail
  rw [← htail]
  rfl

/-- The token that has been consumed last is the one before the cursor. -/
theorem getElem?_previous (hc : c.InRange) (hd : d.InRange) (htokens : d.tokens = c.tokens)
    (hleft : c.state.tokens = t :: d.state.tokens) : d.tokens[d.position - 1]? = some t := by
  have hclength := hc.length_left
  have hdlength := hd.length_left
  have hfinish : d.finishAt = c.finishAt := by simp [finishAt, htokens]
  rw [hleft, List.length_cons] at hclength
  have hposition : d.position - 1 = c.position := by omega
  rw [hposition, htokens, hc.getElem?_position]
  simp [State.current, hleft]

end InRange

/-- Reading `ts` in place comes out as reading what is left of them does, unless that runs out of fuel. -/
def Outcome.Follows {α : Type} (ts : List Token) : Outcome α → Parse.Outcome α → Prop
  | .done a c, .done b s => a = b ∧ c.tokens = ts ∧ c.InRange ∧ c.state = s
  | .failed e c, .failed f s => e = f ∧ c.tokens = ts ∧ c.InRange ∧ c.state = s
  | _, .exhausted => True
  | _, _ => False

/-- Where the reader of the state succeeds, so does the one in place, with the same answer. -/
theorem Outcome.Follows.done {α : Type} {ts : List Token} {o : Outcome α} {a : α} {s : State}
    (h : o.Follows ts (.done a s)) : ∃ c, o = .done a c ∧ c.tokens = ts ∧ c.InRange ∧ c.state = s := by
  cases o with
  | done b c =>
    obtain ⟨rfl, hc⟩ := h
    exact ⟨c, rfl, hc⟩
  | failed | outOfRange | exhausted => exact h.elim

theorem Outcome.follows_exhausted {α : Type} {ts : List Token} (o : Outcome α) : o.Follows ts .exhausted := by
  cases o <;> trivial

end Cursor

namespace Reader

open Cursor (InRange)
open Parse (State resume startsStatement)

variable {α β : Type} {c : Cursor} {t : Token} {rest : List Token}

/-- In place, the first reader does what the second does with the tokens that are left. -/
def Follows (x : Reader α) (y : Parse α) : Prop := ∀ c : Cursor, c.InRange → (x c).Follows c.tokens (y c.state)

theorem bind_done {x : Reader α} {f : α → Reader β} {d : Cursor} {a : α} (h : x c = .done a d) :
    (x >>= f) c = f a d := by
  simp only [Bind.bind, h]

theorem bind_failed {x : Reader α} {f : α → Reader β} {d : Cursor} {e : SyntaxError} (h : x c = .failed e d) :
    (x >>= f) c = .failed e d := by
  simp only [Bind.bind, h]

/-- A step that is known to succeed, and what comes next. -/
theorem follows_step {x : Reader α} {f : α → Reader β} {ts : List Token} {a : α} {s : State} {o : Parse.Outcome β}
    (hx : (x c).Follows ts (.done a s))
    (hf : ∀ d : Cursor, d.tokens = ts → d.InRange → d.state = s → (f a d).Follows ts o) :
    ((x >>= f) c).Follows ts o := by
  obtain ⟨d, hxc, htokens, hd, hstate⟩ := hx.done
  rw [bind_done hxc]
  exact hf d htokens hd hstate

namespace Follows

theorem pure (a : α) : Follows (Pure.pure a) (Pure.pure a) := fun _ hc => ⟨rfl, rfl, hc, rfl⟩

theorem exhausted (x : Reader α) : Follows x Parse.exhausted := fun c _ => (x c).follows_exhausted

/-- One reader after another follows the same one after the other. -/
theorem bind {x : Reader α} {y : Parse α} {f : α → Reader β} {g : α → Parse β} (hx : Follows x y)
    (hf : ∀ a, Follows (f a) (g a)) : Follows (x >>= f) (y >>= g) := by
  intro c hc
  have hfirst := hx c hc
  cases hy : y c.state with
  | done a s =>
    rw [hy] at hfirst
    rw [Parse.bind_done hy]
    refine follows_step hfirst fun d htokens hd hstate => ?_
    rw [← htokens, ← hstate]
    exact hf a d hd
  | failed e s =>
    rw [hy] at hfirst
    rw [Parse.bind_failed hy]
    cases hxc : x c with
    | failed e' d => rw [hxc] at hfirst; rw [bind_failed hxc]; exact hfirst
    | done | outOfRange | exhausted => rw [hxc] at hfirst; exact hfirst.elim
  | exhausted =>
    rw [Parse.bind_exhausted hy]
    exact Cursor.Outcome.follows_exhausted _

theorem map {x : Reader α} {y : Parse α} (hx : Follows x y) (f : α → β) : Follows (f <$> x) (f <$> y) :=
  .bind hx fun a => .pure (f a)

end Follows

/-- A look at a token that is there leaves the cursor where it is. -/
theorem look_done {at_ : Nat → Nat} (h : c.tokens[at_ c.position]? = some t) : look at_ c = .done t c.looked := by
  simp [look, h, Cursor.looked]

theorem peek_done (hc : c.InRange) : peek c = .done c.state.current c.looked := look_done hc.getElem?_position

theorem previous_done (h : c.tokens[c.position - 1]? = some t) : previous c = .done t c.looked := look_done h

/-- The end is at hand when nothing is left to read. -/
theorem isAtEnd_done (hc : c.InRange) : isAtEnd c = .done c.state.tokens.isEmpty c.looked := by
  rw [isAtEnd, bind_done (peek_done hc), hc.current_isFinish]
  rfl

/-- Where a token is left, advancing leaves it behind. -/
theorem advance_done (hc : c.InRange) (hleft : c.state.tokens = t :: rest) :
    advance c = .done t c.looked.moved.looked := by
  have hend : isAtEnd c = .done false c.looked := by simp [isAtEnd_done hc, hleft]
  have hprevious : c.moved.tokens[c.moved.position - 1]? = some t :=
    hc.getElem?_previous (hc.moved hleft) rfl (by simp [Cursor.InRange.state_moved hleft, hleft])
  rw [advance, bind_done hend]
  exact previous_done hprevious

/-- At the end, advancing stays there. -/
theorem advance_at_end (hc : c.InRange) (hleft : c.state.tokens = []) :
    ∃ t, (advance c).Follows c.tokens (.done t c.state) := by
  have hend : isAtEnd c = .done true c.looked := by simp [isAtEnd_done hc, hleft]
  have hlt : c.position - 1 < c.tokens.length := by
    have hposition := hc.position_le
    have hfinish := hc.finishAt_lt
    omega
  refine ⟨c.tokens[c.position - 1], ?_⟩
  rw [advance, bind_done hend]
  change (previous c.looked).Follows _ _
  rw [previous_done (c := c.looked) (List.getElem?_eq_getElem hlt)]
  exact ⟨rfl, rfl, hc.looked.looked, rfl⟩

/-- To advance is to consume the token at hand. -/
theorem advance_follows (hc : c.InRange) (hleft : c.state.tokens = t :: rest) :
    (advance c).Follows c.tokens (.done t { c.state with tokens := rest }) := by
  rw [advance_done hc hleft]
  exact ⟨rfl, rfl, (hc.looked.moved hleft).looked, Cursor.InRange.state_moved (c := c.looked) hleft⟩

namespace Follows

theorem peek : Follows peek Parse.current := by
  intro c hc
  rw [peek_done hc]
  exact ⟨rfl, rfl, hc.looked, rfl⟩

theorem isAtEnd : Follows isAtEnd (Parse.atEnd false) := by
  intro c hc
  rw [isAtEnd_done hc]
  exact ⟨by simp, rfl, hc.looked, rfl⟩

theorem check (p : Token → Bool) : Follows (check p) (Parse.next p) := by
  intro c hc
  rw [Reader.check, bind_done (isAtEnd_done hc)]
  cases hleft : c.state.tokens with
  | nil => exact ⟨by simp [hleft], rfl, hc.looked, rfl⟩
  | cons t rest =>
    refine follows_step (peek c.looked hc.looked) fun d htokens hd hstate => ⟨?_, htokens, hd, hstate⟩
    simp [State.current, hleft]

end Follows

/-- Either the token at hand is of the kind asked for, or no such token is there. -/
theorem head_cases (p : Token → Bool) (ts : List Token) :
    (∃ t rest, ts = t :: rest ∧ p t = true) ∨ ∀ t ∈ ts.head?, p t = false := by
  cases ts with
  | nil => simp
  | cons t rest => cases h : p t <;> simp [h]

/-- A token of the kind asked for is accepted. -/
theorem accept_follows {p : Token → Bool} (hc : c.InRange) (hleft : c.state.tokens = t :: rest) (ht : p t = true) :
    (accept p c).Follows c.tokens (.done true { c.state with tokens := rest }) := by
  refine follows_step (Follows.check p c hc) fun d htokens hd hstate => ?_
  rw [← hstate] at hleft ⊢
  simp only [hleft, List.head?_cons, Option.any_some, ht, if_true]
  rw [← htokens]
  exact follows_step (advance_follows hd hleft) fun e htokens' he hstate' => ⟨rfl, htokens', he, hstate'⟩

/-- A token that is not of the kind asked for stays. -/
theorem accept_refuses {p : Token → Bool} (hc : c.InRange) (h : ∀ t ∈ c.state.tokens.head?, p t = false) :
    (accept p c).Follows c.tokens (.done false c.state) := by
  refine follows_step (Follows.check p c hc) fun d htokens hd hstate => ?_
  have hany : c.state.tokens.head?.any p = false := by simpa [Option.any_eq_false] using h
  rw [hany]
  exact ⟨rfl, htokens, hd, hstate⟩

namespace Follows

theorem accept? (p : Token → Bool) : Follows (accept? p) (Parse.accept? p) := by
  intro c hc
  obtain ⟨t, rest, hleft, ht⟩ | hnone := head_cases p c.state.tokens
  · rw [Parse.accept?, Parse.take?_some hleft (if_pos ht)]
    refine follows_step (accept_follows hc hleft ht) fun d htokens hd hstate => ?_
    have hprevious := hc.getElem?_previous hd htokens (by rw [hleft, hstate])
    rw [if_pos rfl, bind_done (previous_done hprevious)]
    exact ⟨rfl, htokens, hd.looked, hstate⟩
  · rw [Parse.accept?, Parse.take?_none fun t ht => if_neg (by simp [hnone t ht])]
    exact follows_step (accept_refuses hc hnone) fun d htokens hd hstate => ⟨rfl, htokens, hd, hstate⟩

theorem accept (p : Token → Bool) : Follows (accept p) (Parse.accept p) := by
  intro c hc
  obtain ⟨t, rest, hleft, ht⟩ | hnone := head_cases p c.state.tokens
  · rw [Parse.accept, Parse.accept?, Parse.bind_done (Parse.take?_some hleft (if_pos ht))]
    exact accept_follows hc hleft ht
  · rw [Parse.accept, Parse.accept?, Parse.bind_done (Parse.take?_none fun t ht => if_neg (by simp [hnone t ht]))]
    exact accept_refuses hc hnone

theorem fail (cause : SyntaxError.Cause) : Follows (fail cause : Reader α) (Parse.fail cause) := by
  intro c hc
  simp only [Reader.fail, Bind.bind, peek_done hc]
  exact ⟨rfl, rfl, hc.looked, rfl⟩

theorem report (cause : SyntaxError.Cause) (t : Token) : Follows (report cause t) (Parse.report cause t) :=
  fun _ hc => ⟨rfl, rfl, ⟨hc.finishAt_lt, hc.position_le, hc.looks_le⟩, rfl⟩

theorem freshId : Follows freshId Parse.freshId :=
  fun _ hc => ⟨rfl, rfl, ⟨hc.finishAt_lt, hc.position_le, hc.looks_le⟩, rfl⟩

/-- A token that has to come is consumed, or the same error is raised at the same token. -/
theorem expect (p : Token → Bool) (cause : SyntaxError.Cause) : Follows (expect p cause) (Parse.expect p cause) := by
  intro c hc
  refine follows_step (check p c hc) fun d htokens hd hstate => ?_
  rw [← hstate, ← htokens]
  obtain ⟨t, rest, hleft, ht⟩ | hnone := head_cases p d.state.tokens
  · rw [Parse.expect, Parse.accept?, Parse.bind_done (Parse.take?_some hleft (if_pos ht))]
    simpa [hleft, ht] using advance_follows hd hleft
  · have hany : d.state.tokens.head?.any p = false := by simpa [Option.any_eq_false] using hnone
    rw [Parse.expect, Parse.accept?, Parse.bind_done (Parse.take?_none fun t ht => if_neg (by simp [hnone t ht])), hany]
    exact fail cause d hd

theorem closes (inBraces : Bool) : Follows (closes inBraces) (Parse.atEnd inBraces) := by
  cases inBraces with
  | false => exact isAtEnd
  | true =>
    intro c hc
    refine follows_step (check _ c hc) fun d htokens hd hstate => ?_
    cases hbrace : c.state.tokens.head?.any (·.isMark .rightBrace) with
    | true => exact ⟨by simp [hbrace], htokens, hd, hstate⟩
    | false =>
      have hend := isAtEnd d hd
      rw [htokens, hstate] at hend
      simpa [Parse.atEnd, hbrace] using hend

/-- A literal is looked at before it is consumed, and read to the same value. -/
theorem literal? : Follows literal? (Parse.take? Parse.literal?) := by
  intro c hc
  refine follows_step (peek c hc) fun d htokens hd hstate => ?_
  rw [← hstate, ← htokens]
  cases hleft : d.state.tokens with
  | nil =>
    have hfinish : Parse.literal? d.state.finish = none := by simp [Parse.literal?, hd.kind_finish]
    rw [Parse.take?_nil hleft]
    simp only [State.current, hleft, List.headD_nil, hfinish]
    exact pure none d hd
  | cons t rest =>
    simp only [State.current, hleft, List.headD_cons]
    cases ht : Parse.literal? t with
    | none =>
      rw [Parse.take?_none (by simp [hleft, ht])]
      exact pure none d hd
    | some value =>
      rw [Parse.take?_some hleft ht]
      exact follows_step (advance_follows hd hleft) fun e htokens' he hstate' => ⟨rfl, htokens', he, hstate'⟩

/-- Items with commas between them. -/
theorem commas {x : Reader α} {y : Parse α} {xs : Reader (List α)} {ys : Parse (List α)} (hx : Follows x y)
    (hxs : Follows xs ys) :
    Follows
      (do
        let first ← x
        if ← Reader.accept (·.isMark .comma) then
          let rest ← xs
          Pure.pure (first :: rest)
        else Pure.pure [first])
      (Parse.commas y ys) := by
  refine .bind hx fun first => .bind (accept _) fun more => ?_
  cases more with
  | true => exact .bind hxs fun rest => pure (first :: rest)
  | false => exact pure [first]

end Follows

/-- What an assignment makes of its left side has nothing to do with the cursor. -/
theorem assignment_follows (target : Expr) (equals : Token) (value : Expr) :
    Follows (assignment target equals value) (Parse.assignment target equals value) := by
  unfold assignment Parse.assignment
  cases target with
  | «variable» i name => exact .bind .freshId fun id => .pure _
  | get object name => exact .pure _
  | _ => exact .bind (.report _ equals) fun _ => .pure _

/-- All readers of expressions in place follow their namesakes, also with more fuel. -/
structure ExprFollows (more fuel : Nat) : Prop where
  expression : Follows (expression more) (Parse.expression fuel)
  ternary : Follows (ternary more) (Parse.ternary fuel)
  binary : ∀ l, Follows (binary more l) (Parse.binary fuel l)
  operand : ∀ l, Follows (operand more l) (Parse.operand fuel l)
  chain : ∀ l left, Follows (chain more l left) (Parse.chain fuel l left)
  unary : Follows (unary more) (Parse.unary fuel)
  suffixes : ∀ callee, Follows (suffixes more callee) (Parse.suffixes fuel callee)
  arguments : Follows (arguments more) (Parse.arguments fuel)
  argumentsFrom : ∀ count, Follows (argumentsFrom more count) (Parse.argumentsFrom fuel count)
  primary : Follows (primary more) (Parse.primary fuel)

/-- By induction on fuel. A reader in place may need more of it, as it may have more. -/
theorem exprFollows {more fuel : Nat} (h : fuel ≤ more) : ExprFollows more fuel := by
  induction fuel generalizing more with
  | zero => constructor <;> intros <;> exact .exhausted _
  | succ fuel ih =>
    obtain ⟨more, rfl⟩ : ∃ n, more = n + 1 := ⟨more - 1, by omega⟩
    specialize ih (Nat.le_of_succ_le_succ h)
    constructor
    case expression =>
      unfold expression Parse.expression
      refine .bind ih.ternary fun target => .bind (.accept? _) fun equals => ?_
      cases equals with
      | none => exact .pure target
      | some equals => exact .bind ih.expression fun value => assignment_follows target equals value
    case ternary =>
      unfold ternary Parse.ternary
      refine .bind (ih.binary .or) fun condition => .bind (.accept _) fun asked => ?_
      cases asked with
      | false => exact .pure condition
      | true =>
        refine .bind ih.ternary fun yes => .bind (.expect _ _) fun colon => ?_
        exact .bind ih.ternary fun no => .pure _
    case binary =>
      intro l
      unfold binary Parse.binary
      exact .bind (ih.operand l) fun left => ih.chain l left
    case operand =>
      intro l
      unfold operand Parse.operand
      cases l.tighter? with
      | none => exact ih.unary
      | some tighter => exact ih.binary tighter
    case chain =>
      intro l left
      unfold chain Parse.chain
      refine .bind (.accept? _) fun operator => ?_
      cases operator with
      | none => exact .pure left
      | some operator => exact .bind (ih.operand l) fun right => ih.chain l (l.join left operator right)
    case unary =>
      unfold unary Parse.unary
      refine .bind (.accept? _) fun operator => ?_
      cases operator with
      | none => exact .bind ih.primary fun callee => ih.suffixes callee
      | some operator => exact .bind ih.unary fun right => .pure _
    case suffixes =>
      intro callee
      unfold suffixes Parse.suffixes
      refine .bind (.accept _) fun called => ?_
      cases called with
      | true =>
        refine .bind ih.arguments fun given => .bind (.expect _ _) fun paren => ?_
        exact ih.suffixes (.call callee paren given)
      | false =>
        refine .bind (.accept _) fun dotted => ?_
        cases dotted with
        | true => exact .bind (.expect _ _) fun name => ih.suffixes (.get callee name)
        | false => exact .pure callee
    case arguments =>
      unfold arguments Parse.arguments
      refine .bind (.check _) fun closed => ?_
      cases closed with
      | true => exact .pure []
      | false => exact ih.argumentsFrom 0
    case argumentsFrom =>
      intro count
      have hrest := Follows.commas ih.expression (ih.argumentsFrom (count + 1))
      unfold argumentsFrom Parse.argumentsFrom
      split
      · exact .bind .peek fun t => .bind (.report _ t) fun _ => hrest
      · exact hrest
    case primary =>
      unfold primary Parse.primary
      refine .bind .literal? fun value => ?_
      cases value with
      | some value => exact .pure _
      | none =>
        refine .bind (.accept? _) fun keyword => ?_
        cases keyword with
        | some keyword => exact .bind .freshId fun id => .pure _
        | none =>
          refine .bind (.accept? _) fun name => ?_
          cases name with
          | some name => exact .bind .freshId fun id => .pure _
          | none =>
            refine .bind (.accept _) fun grouped => ?_
            cases grouped with
            | true => exact .bind ih.expression fun inner => .bind (.expect _ _) fun paren => .pure _
            | false => exact .fail _

/-- At the end there is nothing to skip. -/
theorem skip_at_end {fuel : Nat} (hc : c.InRange) (hleft : c.state.tokens = []) (hfuel : 0 < fuel) :
    (skip fuel c).Follows c.tokens (.done () c.state) := by
  obtain ⟨fuel, rfl⟩ := Nat.exists_eq_add_one.mpr hfuel
  have hend : isAtEnd c = .done true c.looked := by simp [isAtEnd_done hc, hleft]
  rw [skip, bind_done hend]
  exact Follows.pure () c.looked hc.looked

/-- Behind a token that has been consumed, the tokens up to where reading resumes are skipped. -/
theorem skip_follows {fuel : Nat} (hc : c.InRange) (ht : c.tokens[c.position - 1]? = some t)
    (hfuel : c.state.tokens.length < fuel) :
    (skip fuel c).Follows c.tokens (.done () { c.state with tokens := resume (t :: c.state.tokens) }) := by
  induction fuel generalizing c t with
  | zero => exact absurd hfuel (Nat.not_lt_zero _)
  | succ fuel ih =>
    cases hleft : c.state.tokens with
    | nil =>
      have hresume : resume [t] = [] := by simp [resume]
      rw [hresume, ← hleft]
      exact skip_at_end hc hleft (Nat.succ_pos fuel)
    | cons u rest =>
      have hend : isAtEnd c = .done false c.looked := by simp [isAtEnd_done hc, hleft]
      have hpeek : peek c.looked.looked = .done u c.looked.looked.looked := by
        simp [peek_done hc.looked.looked, State.current, hleft]
      rw [skip, bind_done hend]
      simp only [Bool.false_eq_true, if_false]
      rw [bind_done (previous_done (c := c.looked) ht)]
      cases hsemicolon : t.isMark .semicolon with
      | true =>
        have hresume : resume (t :: u :: rest) = u :: rest := by simp [resume, hsemicolon]
        rw [hresume, ← hleft]
        exact Follows.pure () c.looked.looked hc.looked.looked
      | false =>
        simp only [Bool.false_eq_true, if_false]
        rw [bind_done hpeek]
        cases hstarts : startsStatement u with
        | true =>
          have hresume : resume (t :: u :: rest) = u :: rest := by simp [resume, hstarts]
          rw [hresume, ← hleft]
          exact Follows.pure () c.looked.looked.looked hc.looked.looked.looked
        | false =>
          have hresume : resume (t :: u :: rest) = resume (u :: rest) := by simp [resume, hsemicolon, hstarts]
          rw [hresume]
          refine follows_step (advance_follows hc.looked.looked.looked hleft) fun d htokens hd hstate => ?_
          have hprevious := hc.getElem?_previous hd htokens (by rw [hleft, hstate])
          have hrest : d.state.tokens.length < fuel := by
            rw [hleft, List.length_cons] at hfuel
            rw [hstate]
            exact Nat.lt_of_succ_lt_succ hfuel
          have hskip := ih hd hprevious hrest
          rw [htokens, hstate] at hskip
          exact hskip

/-- Recovery consumes a token and skips the others up to where reading resumes. -/
theorem synchronize_follows (hc : c.InRange) :
    (synchronize c).Follows c.tokens (.done () { c.state with tokens := resume c.state.tokens }) := by
  have hlength := hc.length_left
  have hfinish := hc.finishAt_lt
  cases hleft : c.state.tokens with
  | nil =>
    obtain ⟨t, ht⟩ := advance_at_end hc hleft
    rw [resume, ← hleft]
    refine follows_step ht fun d htokens hd hstate => ?_
    rw [← hstate] at hleft ⊢
    rw [← htokens] at hfinish ⊢
    exact skip_at_end hd hleft (Nat.zero_lt_of_lt hfinish)
  | cons t rest =>
    refine follows_step (advance_follows hc hleft) fun d htokens hd hstate => ?_
    have hprevious := hc.getElem?_previous hd htokens (by rw [hleft, hstate])
    have hrest : d.state.tokens.length < d.tokens.length := by
      rw [hleft, List.length_cons] at hlength
      rw [hstate, htokens]
      change rest.length < c.tokens.length
      omega
    have hskip := skip_follows hd hprevious hrest
    rw [hstate] at hskip
    rw [← htokens]
    exact hskip

/-- A reader that fails is followed to where reading resumes. -/
theorem Follows.recover {x : Reader Stmt} {y : Parse Stmt} (hx : Follows x y) :
    Follows (recover x) (Parse.recover y) := by
  intro c hc
  have hfirst := hx c hc
  unfold Reader.recover Parse.recover
  cases hy : y c.state with
  | done s st =>
    rw [hy] at hfirst
    obtain ⟨d, hxc, hd⟩ := hfirst.done
    rw [hxc]
    exact ⟨rfl, hd⟩
  | failed e st =>
    rw [hy] at hfirst
    cases hxc : x c with
    | failed e' d =>
      rw [hxc] at hfirst
      obtain ⟨rfl, htokens, hd, rfl⟩ := hfirst
      have hreported : Cursor.InRange { d with errors := d.errors.push e' } :=
        ⟨hd.finishAt_lt, hd.position_le, hd.looks_le⟩
      rw [← htokens]
      exact follows_step (synchronize_follows hreported) fun _ htokens hd hstate => ⟨rfl, htokens, hd, hstate⟩
    | done | outOfRange | exhausted => rw [hxc] at hfirst; exact hfirst.elim
  | exhausted => exact Cursor.Outcome.follows_exhausted _

/-- Parameters, by induction on fuel. -/
theorem parametersFrom_follows {more fuel : Nat} (h : fuel ≤ more) (count : Nat) :
    Follows (parametersFrom more count) (Parse.parametersFrom fuel count) := by
  induction fuel generalizing more count with
  | zero => exact .exhausted _
  | succ fuel ih =>
    obtain ⟨more, rfl⟩ : ∃ n, more = n + 1 := ⟨more - 1, by omega⟩
    have hname := Follows.expect Token.isIdentifier .parameterName
    have hrest := hname.commas (ih (Nat.le_of_succ_le_succ h) (count + 1))
    unfold parametersFrom Parse.parametersFrom
    split
    · exact .bind .peek fun t => .bind (.report _ t) fun _ => hrest
    · exact hrest

section

variable {more fuel : Nat} (h : fuel ≤ more)
include h

theorem parameters_follows : Follows (parameters more) (Parse.parameters fuel) := by
  refine .bind (.check _) fun closed => ?_
  cases closed with
  | true => exact .pure []
  | false => exact parametersFrom_follows h 0

/-- A part that may be left out. -/
theorem expressionUnless_follows (p : Token → Bool) :
    Follows (expressionUnless more p) (Parse.expressionUnless fuel p) := by
  refine .bind (.check p) fun found => ?_
  cases found with
  | true => exact .pure none
  | false => exact .map (exprFollows h).expression some

/-- Declarations and statements are read with the same steps as their namesakes. -/
theorem varDeclaration_follows : Follows (varDeclaration more) (Parse.varDeclaration fuel) := by
  refine .bind (.expect _ _) fun name => .bind (.accept _) fun initialized => ?_
  cases initialized with
  | true => exact .bind (exprFollows h).expression fun value => .bind (.expect _ _) fun semicolon => .pure _
  | false => exact .bind (.expect _ _) fun semicolon => .pure _

theorem expressionStatement_follows : Follows (expressionStatement more) (Parse.expressionStatement fuel) :=
  .bind (exprFollows h).expression fun _ => .bind (.expect _ _) fun _ => .pure _

theorem printStatement_follows : Follows (printStatement more) (Parse.printStatement fuel) :=
  .bind (exprFollows h).expression fun _ => .bind (.expect _ _) fun _ => .pure _

theorem returnStatement_follows (keyword : Token) :
    Follows (returnStatement more keyword) (Parse.returnStatement fuel keyword) :=
  .bind (expressionUnless_follows h _) fun _ => .bind (.expect _ _) fun _ => .pure _

theorem forInitializer_follows : Follows (forInitializer more) (Parse.forInitializer fuel) := by
  refine .bind (.accept _) fun missing => ?_
  cases missing with
  | true => exact .pure none
  | false =>
    refine .bind (.accept _) fun declared => ?_
    cases declared with
    | true => exact .map (varDeclaration_follows h) some
    | false => exact .map (expressionStatement_follows h) some

end

theorem breakStatement_follows (keyword : Token) :
    Follows (breakStatement keyword) (Parse.breakStatement keyword) :=
  .bind (.expect _ _) fun _ => .pure _

/-- All readers of statements in place follow their namesakes, also with more fuel. -/
structure StmtFollows (more fuel : Nat) : Prop where
  declarations : ∀ inBlock, Follows (declarations more inBlock) (Parse.declarations fuel inBlock)
  item : Follows (item more) (Parse.declaration fuel)
  classDeclaration : Follows (classDeclaration more) (Parse.classDeclaration fuel)
  methods : Follows (methods more) (Parse.methods fuel)
  function : ∀ callable, Follows (function more callable) (Parse.function fuel callable)
  block : Follows (block more) (Parse.block fuel)
  statement : Follows (statement more) (Parse.statement fuel)
  forStatement : Follows (forStatement more) (Parse.forStatement fuel)
  ifStatement : Follows (ifStatement more) (Parse.ifStatement fuel)
  whileStatement : Follows (whileStatement more) (Parse.whileStatement fuel)

/-- By induction on fuel, from the readers of expressions. -/
theorem stmtFollows {more fuel : Nat} (h : fuel ≤ more) : StmtFollows more fuel := by
  induction fuel generalizing more with
  | zero => constructor <;> intros <;> exact .exhausted _
  | succ fuel ih =>
    obtain ⟨more, rfl⟩ : ∃ n, more = n + 1 := ⟨more - 1, by omega⟩
    have h : fuel ≤ more := Nat.le_of_succ_le_succ h
    specialize ih h
    have hexpr := exprFollows h
    constructor
    case declarations =>
      intro inBlock
      unfold declarations Parse.declarations
      refine .bind (.closes inBlock) fun closed => ?_
      cases closed with
      | true => exact .pure []
      | false => exact .bind (.recover ih.item) fun first => .bind (ih.declarations inBlock) fun rest => .pure _
    case item =>
      unfold item Parse.declaration
      refine .bind (.accept _) fun found => ?_
      cases found with
      | true => exact ih.classDeclaration
      | false =>
        refine .bind (.accept _) fun found => ?_
        cases found with
        | true => exact .map (ih.function .function) Stmt.function
        | false =>
          refine .bind (.accept _) fun found => ?_
          cases found with
          | true => exact varDeclaration_follows h
          | false => exact ih.statement
    case classDeclaration =>
      unfold classDeclaration Parse.classDeclaration
      refine .bind (.expect _ _) fun name => .bind (.expect _ _) fun left => ?_
      exact .bind ih.methods fun declared => .bind (.expect _ _) fun right => .pure _
    case methods =>
      unfold methods Parse.methods
      refine .bind (.closes true) fun closed => ?_
      cases closed with
      | true => exact .pure []
      | false => exact .bind (ih.function .method) fun first => .bind ih.methods fun rest => .pure _
    case function =>
      intro callable
      unfold function Parse.function
      refine .bind (.expect _ _) fun name => .bind (.expect _ _) fun left => ?_
      refine .bind (parameters_follows h) fun declared => .bind (.expect _ _) fun right => ?_
      exact .bind (.expect _ _) fun brace => .bind ih.block fun body => .pure _
    case block =>
      unfold block Parse.block
      exact .bind (ih.declarations true) fun body => .bind (.expect _ _) fun right => .pure body
    case statement =>
      unfold statement Parse.statement
      refine .bind (.accept _) fun found => ?_
      cases found with
      | true => exact ih.forStatement
      | false =>
        refine .bind (.accept _) fun found => ?_
        cases found with
        | true => exact ih.ifStatement
        | false =>
          refine .bind (.accept _) fun found => ?_
          cases found with
          | true => exact printStatement_follows h
          | false =>
            refine .bind (.accept? _) fun keyword => ?_
            cases keyword with
            | some keyword => exact returnStatement_follows h keyword
            | none =>
              refine .bind (.accept _) fun found => ?_
              cases found with
              | true => exact ih.whileStatement
              | false =>
                refine .bind (.accept? _) fun keyword => ?_
                cases keyword with
                | some keyword => exact breakStatement_follows keyword
                | none =>
                  refine .bind (.accept _) fun found => ?_
                  cases found with
                  | true => exact .map ih.block Stmt.block
                  | false => exact expressionStatement_follows h
    case forStatement =>
      unfold forStatement Parse.forStatement
      refine .bind (.expect _ _) fun left => .bind (forInitializer_follows h) fun initializer => ?_
      refine .bind (expressionUnless_follows h _) fun condition => .bind (.expect _ _) fun semicolon => ?_
      refine .bind (expressionUnless_follows h _) fun increment => .bind (.expect _ _) fun right => ?_
      exact .bind ih.statement fun body => .pure _
    case ifStatement =>
      unfold ifStatement Parse.ifStatement
      refine .bind (.expect _ _) fun left => .bind hexpr.expression fun condition => ?_
      refine .bind (.expect _ _) fun right => .bind ih.statement fun yes => .bind (.accept _) fun otherwise => ?_
      cases otherwise with
      | true => exact .bind ih.statement fun no => .pure _
      | false => exact .pure _
    case whileStatement =>
      unfold whileStatement Parse.whileStatement
      refine .bind (.expect _ _) fun left => .bind hexpr.expression fun condition => ?_
      exact .bind (.expect _ _) fun right => .bind ih.statement fun body => .pure _

end Reader

namespace Parse

/-- Tokens with an end are taken apart at the first. -/
theorem splitAtFinish_of_lt {ts : List Token} (h : ts.findIdx (·.kind == .finish) < ts.length) :
    Parsed.splitAtFinish ts = (ts.take (ts.findIdx (·.kind == .finish)), ts[ts.findIdx (·.kind == .finish)]) := by
  have hnot : (fun t : Token => !(t.kind != .finish)) = (·.kind == .finish) := funext fun t => Bool.not_not _
  have htake : ts.takeWhile (·.kind != .finish) = _ := List.takeWhile_eq_take_findIdx_not
  have hdrop : ts.dropWhile (·.kind != .finish) = _ := List.dropWhile_eq_drop_findIdx_not
  rw [hnot] at htake hdrop
  rw [List.drop_eq_getElem_cons h] at hdrop
  unfold Parsed.splitAtFinish
  rw [hdrop, htake]

/-- An end that is added to a list without one is the end that it has been given all along. -/
theorem splitAtFinish_closed (ts : List Token) :
    Parsed.splitAtFinish (ts ++ [⟨.finish, "", (ts.getLast?.map Token.line).getD 1⟩]) = Parsed.splitAtFinish ts := by
  have hsplit := List.takeWhile_append_dropWhile (p := (·.kind != .finish)) (l := ts)
  unfold Parsed.splitAtFinish
  rw [List.dropWhile_append, List.takeWhile_append]
  cases hd : ts.dropWhile (·.kind != .finish) with
  | nil =>
    rw [hd, List.append_nil] at hsplit
    simp [hsplit]
  | cons t rest =>
    have hlength : (ts.takeWhile (·.kind != .finish)).length ≠ ts.length := by
      intro h
      have hlengths := congrArg List.length hsplit
      simp [hd, h] at hlengths
    simp [hlength]

end Parse

namespace Cursor

variable (tokens : List Token) (n : OccurrenceId)

/-- A list of tokens that is read has an end. -/
theorem finishAt_ofTokens_lt : (ofTokens tokens n).finishAt < (ofTokens tokens n).tokens.length := by
  refine List.findIdx_lt_length.mpr ?_
  cases hlast : tokens.getLast?.any (·.kind == .finish) with
  | false => exact ⟨⟨.finish, "", (tokens.getLast?.map Token.line).getD 1⟩, by simp [ofTokens, hlast], rfl⟩
  | true =>
    cases ht : tokens.getLast? with
    | none => simp [ht] at hlast
    | some t => exact ⟨t, by simpa [ofTokens, hlast] using List.mem_of_getLast? ht, by simpa [ht] using hlast⟩

/-- Reading starts in range. -/
theorem inRange_ofTokens : (ofTokens tokens n).InRange where
  finishAt_lt := finishAt_ofTokens_lt tokens n
  position_le := Nat.zero_le _
  looks_le := List.pairwise_singleton _ _

/-- It starts with the state that the other readers start with. -/
theorem state_ofTokens : (ofTokens tokens n).state = Parse.start tokens n := by
  have hclosed : Parsed.splitAtFinish (ofTokens tokens n).tokens = Parsed.splitAtFinish tokens := by
    cases hlast : tokens.getLast?.any (·.kind == .finish) with
    | false => simpa [ofTokens, hlast] using Parse.splitAtFinish_closed tokens
    | true => simp [ofTokens, hlast]
  have hlt := finishAt_ofTokens_lt tokens n
  have hsplit := Parse.splitAtFinish_of_lt hlt
  rw [hclosed] at hsplit
  have hfinish : (ofTokens tokens n).tokens[(ofTokens tokens n).finishAt]? = some _ := List.getElem?_eq_getElem hlt
  simp only [Parse.start, hsplit, state, hfinish]
  rfl

end Cursor

namespace Parse

/-- What recovers does not fail. -/
theorem recover_not_failed (x : Parse Stmt) (s : State) (e : SyntaxError) (t : State) : recover x s ≠ .failed e t := by
  unfold recover
  split <;> simp

/-- Declarations outside of braces go on to the end. -/
theorem declarations_left {fuel : Nat} {s s' : State} {ss : List Stmt} (h : declarations fuel false s = .done ss s') :
    s'.tokens = [] := by
  induction fuel generalizing s ss with
  | zero => cases h
  | succ fuel ih =>
    unfold declarations at h
    obtain ⟨closed, s₁, hend, h⟩ := bind_eq_done h
    cases hend
    cases hleft : s.tokens with
    | nil =>
      simp only [hleft, List.isEmpty_nil, Bool.true_or, if_true] at h
      cases h
      exact hleft
    | cons t rest =>
      simp only [hleft, List.isEmpty_cons, Bool.false_and, Bool.or_false, Bool.false_eq_true, if_false] at h
      obtain ⟨first, s₂, -, h⟩ := bind_eq_done h
      obtain ⟨others, s₃, hrest, h⟩ := bind_eq_done h
      cases h
      exact ih hrest

end Parse

namespace Cursor

/-- Every list of tokens is read to an end in place, with the statements and errors of the list: the cursor goes on
from the first token to the first end and not beyond it, and no token is looked at that is not there. A declaration
that is read before the end takes at least one token, also when it is dropped. -/
theorem reading_stays_in_range (tokens : List Token) (n : OccurrenceId) :
    (∃ enough, ∀ fuel ≥ enough, ∃ c,
      Reader.declarations fuel false (ofTokens tokens n) = .done (Parsed.ofTokens tokens n).statements c ∧
        c.errors.toList = (Parsed.ofTokens tokens n).errors ∧ c.nextId = (Parsed.ofTokens tokens n).nextId ∧
        c.tokens = (ofTokens tokens n).tokens ∧ c.InRange ∧ c.position = c.finishAt) ∧
    ∀ c : Cursor, c.tokens = (ofTokens tokens n).tokens → c.InRange → c.position < c.finishAt →
      ∃ enough, ∀ fuel ≥ enough, ∃ s d, Reader.declaration fuel c = .done s d ∧
        d.tokens = c.tokens ∧ d.InRange ∧ c.position < d.position := by
  refine ⟨⟨Parsed.fuelFor (Parse.start tokens n).tokens, fun fuel hfuel => ?_⟩, fun c _ hc hbefore => ?_⟩
  · obtain ⟨ss, s, hd, ho⟩ := Parse.ofTokens_done tokens n
    have hfollows := (Reader.stmtFollows hfuel).declarations false (ofTokens tokens n) (inRange_ofTokens tokens n)
    rw [state_ofTokens, hd] at hfollows
    obtain ⟨c, hread, htokens, hc, hstate⟩ := hfollows.done
    have hlength := hc.length_left
    rw [hstate, Parse.declarations_left hd, List.length_nil, Nat.add_zero] at hlength
    rw [ho, ← hstate]
    exact ⟨c, hread, rfl, rfl, htokens, hc, hlength⟩
  · refine ⟨32 * c.state.tokens.length + 20, fun fuel hfuel => ?_⟩
    have hlength := hc.length_left
    have hleft : c.state.tokens ≠ [] := by
      intro h
      rw [h, List.length_nil] at hlength
      omega
    have hadvances := (Parse.stmtAdvances fuel).declaration _ hfuel
    have htakes := Parse.recover_advances hadvances (Nat.le_refl _) hleft
    have hfollows := (Reader.stmtFollows (Nat.le_refl fuel)).item.recover c hc
    cases hy : Parse.recover (Parse.declaration fuel) c.state with
    | done s t =>
      rw [hy] at htakes hfollows
      obtain ⟨d, hread, htokens, hd, rfl⟩ := hfollows.done
      refine ⟨s, d, hread, htokens, hd, ?_⟩
      have hdlength := hd.length_left
      have hfinish : d.finishAt = c.finishAt := by simp [finishAt, htokens]
      simp only [Parse.Outcome.Consumes] at htakes
      omega
    | failed e t => exact absurd hy (Parse.recover_not_failed _ _ e t)
    | exhausted => rw [hy] at htakes; exact htakes.elim

/-- An end may stand in the middle of the tokens, and a statement may be missing before it. -/
theorem lone_semicolon_is_taken :
    ∃ enough, ∀ fuel ≥ enough, ∃ s d,
      Reader.declaration fuel (ofTokens [⟨.mark .semicolon, ";", 1⟩, ⟨.finish, "", 1⟩, ⟨.mark .dot, ".", 1⟩] 0) =
          .done s d ∧
        d.tokens = [⟨.mark .semicolon, ";", 1⟩, ⟨.finish, "", 1⟩, ⟨.mark .dot, ".", 1⟩, ⟨.finish, "", 1⟩] ∧
        d.InRange ∧ 0 < d.position :=
  (reading_stays_in_range _ 0).2 _ rfl (inRange_ofTokens _ 0) (by decide)

end Cursor

end LoxLang
