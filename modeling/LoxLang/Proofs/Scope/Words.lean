import LoxLang.Token.Lexer
import LoxLang.Proofs.Grammar.Trees
import LoxLang.Proofs.Scope.Sites

namespace LoxLang

/-- The kind of a word is what the word says. -/
def Token.Spelled (t : Token) : Prop :=
  (t.kind = .identifier → Keyword.ofWord? t.lexeme = none) ∧
    ∀ k, t.kind = .keyword k → t.lexeme = k.word

theorem Keyword.word_of_ofWord? {word : String} {k : Keyword} (h : Keyword.ofWord? word = some k) :
    word = k.word := by
  have := List.find?_some h
  simpa using (beq_iff_eq.1 this).symm

namespace Piece

theorem wordKind_spelled (text : List Char) (line : Nat) :
    Token.Spelled ⟨wordKind text, String.ofList text, line⟩ := by
  unfold wordKind
  constructor
  · intro h
    dsimp only at h
    split at h
    · cases h
    · next hw => exact hw
  · intro k h
    dsimp only at h
    split at h
    · next hw =>
      cases h
      exact Keyword.word_of_ofWord? hw
    · cases h

/-- Marks, numbers and strings are no words. -/
theorem spelled_of_not_word {kind : Token.Kind} {lexeme : String} {line : Nat} (hi : kind ≠ .identifier)
    (hk : ∀ k, kind ≠ .keyword k) : Token.Spelled ⟨kind, lexeme, line⟩ :=
  ⟨fun h => absurd h hi, fun k h => absurd h (hk k)⟩

/-- Whatever token the scanner takes first is spelled as its kind says. -/
theorem first_spelled {c : Char} {cs : List Char} {kind : Token.Kind} (line : Nat)
    (h : (first c cs).1.form = .token kind) :
    Token.Spelled ⟨kind, String.ofList (first c cs).1.text, line⟩ := by
  unfold first at h ⊢
  split at h
  · next hq =>
    rw [if_pos hq]
    unfold string at h
    split at h <;> cases h
    exact spelled_of_not_word nofun nofun
  next hq =>
  rw [if_neg hq]
  split at h
  · next hs =>
    rw [if_pos hs]
    unfold slash at h
    split at h
    · cases h
    · split at h <;> cases h
    · cases h
      exact spelled_of_not_word nofun nofun
  next hs =>
  rw [if_neg hs]
  split at h
  · next hd =>
    rw [if_pos hd]
    cases h
    exact spelled_of_not_word nofun nofun
  next hd =>
  rw [if_neg hd]
  split at h
  · next hw =>
    rw [if_pos hw]
    cases h
    exact wordKind_spelled _ line
  next hw =>
  rw [if_neg hw]
  split at h
  · cases h
  next hb =>
  rw [if_neg hb]
  split at h
  · unfold mark at h
    split at h <;> cases h <;> exact spelled_of_not_word nofun nofun
  · cases h

theorem ofSource_spelled {source : List Char} {p : Piece} {kind : Token.Kind} (line : Nat)
    (hp : p ∈ ofSource source) (h : p.form = .token kind) :
    Token.Spelled ⟨kind, String.ofList p.text, line⟩ := by
  fun_induction ofSource source with
  | case1 => cases hp
  | case2 c cs ih =>
    rcases List.mem_cons.1 hp with rfl | hp
    · exact first_spelled line h
    · exact ih hp

end Piece

theorem Item.ofPieces_spelled {line : Nat} {ps : List Piece} {t : Token}
    (hps : ∀ p ∈ ps, ∀ kind line, p.form = .token kind → Token.Spelled ⟨kind, String.ofList p.text, line⟩)
    (h : Item.token t ∈ Item.ofPieces line ps) : t.Spelled := by
  induction ps generalizing line with
  | nil =>
    simp only [Item.ofPieces, List.mem_singleton, Item.token.injEq] at h
    subst h
    exact Piece.spelled_of_not_word nofun nofun
  | cons p ps ih =>
    rw [Item.ofPieces, List.mem_append] at h
    rcases h with h | h
    · rw [Option.mem_toList] at h
      unfold Piece.item? at h
      split at h <;> simp only [reduceCtorEq, Option.some.injEq, Item.token.injEq] at h
      next kind hk =>
        subst h
        exact hps p (by simp) kind line hk
    · exact ih (fun p hp => hps p (List.mem_cons_of_mem _ hp)) h

theorem Token.ofSource_spelled {source : String} {t : Token} (h : t ∈ Token.ofSource source) : t.Spelled := by
  obtain ⟨item, hi, ht⟩ := List.mem_filterMap.1 h
  cases item with
  | error e => cases ht
  | token u =>
    cases ht
    exact Item.ofPieces_spelled (fun p hp kind line hk => Piece.ofSource_spelled line hp hk) hi

/-- An identifier is not the word `this`. -/
theorem Token.Spelled.ne_this {t : Token} (h : t.Spelled) (hk : t.kind = .identifier) : t.lexeme ≠ "this" := by
  intro he
  have := h.1 hk
  rw [he] at this
  exact absurd this (by decide)

namespace Scoping

/-- Only the scope around methods has a name `this`. -/
structure Context.Worded (c : Context) : Prop where
  frames : ∀ frame ∈ c.frames, ∀ d ∈ frame, d.1 = "this" → d.2 = .this
  initializing : c.initializing ≠ some "this"

def Site.Worded (σ : Site) : Prop :=
  σ.context.Worded ∧ (σ.occurrence.form = .this → σ.name = "this")

namespace Context.Worded

variable {c : Context}

theorem top : Context.top.Worded := ⟨by rintro frame ⟨⟩, nofun⟩

theorem inInitializer {name : Token} (h : c.Worded) (hn : name.lexeme ≠ "this") :
    (c.inInitializer name).Worded :=
  ⟨h.frames, fun he => hn (Option.some.inj he)⟩

theorem inside {frame : Frame} (h : c.Worded) (hf : ∀ d ∈ frame, d.1 = "this" → d.2 = .this) :
    (c.inside frame).Worded := by
  refine ⟨fun f hm => ?_, h.initializing⟩
  rcases List.mem_cons.1 hm with rfl | hm
  · exact hf
  · exact h.frames f hm

theorem inside_nil (h : c.Worded) : (c.inside []).Worded :=
  h.inside (by rintro d ⟨⟩)

theorem inClass (h : c.Worded) : c.inClass.Worded := by
  refine h.inside fun d hd _ => ?_
  rw [List.mem_singleton.1 hd]

theorem inBody {place : Binding.Place} {ps : List Token} (h : c.Worded)
    (hps : ∀ p ∈ ps, p.lexeme ≠ "this") : (c.inBody place ps).Worded := by
  have hi : (c.inside (ps.map fun p => (p.lexeme, .parameter))).Worded := by
    refine h.inside fun d hd hthis => ?_
    obtain ⟨p, hp, rfl⟩ := List.mem_map.1 hd
    exact absurd hthis (hps p hp)
  exact ⟨hi.frames, hi.initializing⟩

theorem declare {name : Token} {form : Form} (h : c.Worded) (hn : name.lexeme ≠ "this") :
    (c.declare name form).Worded := by
  unfold Context.declare
  split
  · exact h
  · next frame frames hc =>
    refine ⟨fun f hf d hd hthis => ?_, h.initializing⟩
    rcases List.mem_cons.1 hf with rfl | hf
    · rcases List.mem_append.1 hd with hd | hd
      · exact h.frames frame (hc ▸ List.mem_cons_self) d hd hthis
      · rw [List.mem_singleton.1 hd] at hthis
        exact absurd hthis hn
    · exact h.frames f (hc ▸ List.mem_cons_of_mem _ hf) d hd hthis

/-- The name `this` is only ever declared around methods. -/
theorem this_declared (h : c.Worded) {d : Nat} {form : Form}
    (hd : Scoping.declaration? "this" c.frames = some (d, form)) : form = .this := by
  obtain ⟨frame, hf, hl⟩ := mem_of_declaration? hd
  obtain ⟨l, l', rfl, -⟩ := List.lookup_eq_some_iff.1 hl
  exact h.frames _ hf ("this", form) (by simp) rfl

end Context.Worded

end Scoping

namespace Grammar
open Scoping

mutual

/-- In the reading of an expression the words are where the grammar has them, and the names are identifiers. -/
theorem expr_worded {r : ExprRule} {w : List Token} {e : Expr} :
    ReadsExpr r w e → (∀ t ∈ w, t.Spelled) → ∀ c : Context, c.Worded → ∀ σ ∈ e.sites c, σ.Worded
  | .assignVariable hn hq h, hw, c, hc, σ, hσ => by
    rcases List.mem_append.1 hσ with hσ | hσ
    · exact expr_worded h (fun t ht => hw t (by simp [ht])) c hc σ hσ
    · rw [List.mem_singleton.1 hσ]
      exact ⟨hc, nofun⟩
  | .assignProperty ho hd hn hq h, hw, c, hc, σ, hσ => by
    rcases List.mem_append.1 hσ with hσ | hσ
    · exact expr_worded h (fun t ht => hw t (by simp [ht])) c hc σ hσ
    · exact expr_worded ho (fun t ht => hw t (by simp [ht])) c hc σ hσ
  | .assignmentTernary h, hw, c, hc, σ, hσ | .ternaryBinary h, hw, c, hc, σ, hσ
  | .binaryOperand h, hw, c, hc, σ, hσ | .operandBinary _ h, hw, c, hc, σ, hσ
  | .operandUnary _ h, hw, c, hc, σ, hσ | .unaryCall h, hw, c, hc, σ, hσ
  | .callPrimary h, hw, c, hc, σ, hσ => expr_worded h hw c hc σ hσ
  | .ternary hcond hq ha hcolon hb, hw, c, hc, σ, hσ => by
    rcases List.mem_append.1 hσ with hσ | hσ
    · rcases List.mem_append.1 hσ with hσ | hσ
      · exact expr_worded hcond (fun t ht => hw t (by simp [ht])) c hc σ hσ
      · exact expr_worded ha (fun t ht => hw t (by simp [ht])) c hc σ hσ
    · exact expr_worded hb (fun t ht => hw t (by simp [ht])) c hc σ hσ
  | @ReadsExpr.binary l operator _ _ left right hl ho hr, hw, c, hc, σ, hσ => by
    have hj : (l.join left operator right).sites c = left.sites c ++ right.sites c := by cases l <;> rfl
    rw [hj] at hσ
    rcases List.mem_append.1 hσ with hσ | hσ
    · exact expr_worded hl (fun t ht => hw t (by simp [ht])) c hc σ hσ
    · exact expr_worded hr (fun t ht => hw t (by simp [ht])) c hc σ hσ
  | .unary ho h, hw, c, hc, σ, hσ => expr_worded h (fun t ht => hw t (by simp [ht])) c hc σ hσ
  | .call h hl hs hr, hw, c, hc, σ, hσ => by
    rcases List.mem_append.1 hσ with hσ | hσ
    · exact expr_worded h (fun t ht => hw t (by simp [ht])) c hc σ hσ
    · exact arguments_worded hs (fun t ht => hw t (by simp [ht])) c hc σ hσ
  | .get h hd hn, hw, c, hc, σ, hσ => expr_worded h (fun t ht => hw t (by simp [ht])) c hc σ hσ
  | .literal _, _, _, _, _, hσ => by cases hσ
  | .this (t := t) h, hw, c, hc, σ, hσ => by
    rw [List.mem_singleton.1 hσ]
    exact ⟨hc, fun _ => (hw t (by simp)).2 .this_ h⟩
  | .variable h, hw, c, hc, σ, hσ => by
    rw [List.mem_singleton.1 hσ]
    exact ⟨hc, nofun⟩
  | .group hl h hr, hw, c, hc, σ, hσ => expr_worded h (fun t ht => hw t (by simp [ht])) c hc σ hσ

theorem arguments_worded {w : List Token} {es : List Expr} :
    ReadsArguments w es → (∀ t ∈ w, t.Spelled) → ∀ c : Context, c.Worded → ∀ σ ∈ Expr.sitesAll c es, σ.Worded
  | .nil, _, _, _, _, hσ => by cases hσ
  | .some h _, hw, c, hc, σ, hσ => someArguments_worded h hw c hc σ hσ

theorem someArguments_worded {w : List Token} {es : List Expr} :
    ReadsSomeArguments w es → (∀ t ∈ w, t.Spelled) → ∀ c : Context, c.Worded →
    ∀ σ ∈ Expr.sitesAll c es, σ.Worded
  | .one h, hw, c, hc, σ, hσ => by
    rcases List.mem_append.1 hσ with hσ | hσ
    · exact expr_worded h hw c hc σ hσ
    · cases hσ
  | .cons h hcomma hs, hw, c, hc, σ, hσ => by
    rcases List.mem_append.1 hσ with hσ | hσ
    · exact expr_worded h (fun t ht => hw t (by simp [ht])) c hc σ hσ
    · exact someArguments_worded hs (fun t ht => hw t (by simp [ht])) c hc σ hσ

end

/-- Wherever the statement stands, the words in it are right, and the names after it. -/
def WordedStmt (s : Stmt) : Prop :=
  ∀ c : Context, c.Worded → (∀ σ ∈ s.sites c, σ.Worded) ∧ (c.after s).Worded

def WordedStmts (ss : List Stmt) : Prop := ∀ c : Context, c.Worded → ∀ σ ∈ Stmt.sitesAll c ss, σ.Worded

def WordedFunction (f : Function) : Prop :=
  ∀ place, ∀ c : Context, c.Worded → ∀ σ ∈ f.sites place c, σ.Worded

def WordedFunctions (fs : List Function) : Prop := ∀ c : Context, c.Worded → ∀ σ ∈ Function.sitesAll c fs, σ.Worded

def WordedExpr (e : Expr) : Prop := ∀ c : Context, c.Worded → ∀ σ ∈ e.sites c, σ.Worded

theorem WordedStmts.nil : WordedStmts [] := by
  rintro c hc σ ⟨⟩

/-- The first statement leaves a context in which the words are right for the others. -/
theorem WordedStmts.cons {s : Stmt} {ss : List Stmt} (h : WordedStmt s) (hs : WordedStmts ss) :
    WordedStmts (s :: ss) := by
  intro c hc σ hσ
  rcases List.mem_append.1 hσ with hσ | hσ
  · exact (h c hc).1 σ hσ
  · exact hs _ (h c hc).2 σ hσ

theorem WordedStmt.block {ss : List Stmt} (h : WordedStmts ss) : WordedStmt (.block ss) :=
  fun _ hc => ⟨h _ hc.inside_nil, hc⟩

theorem WordedStmt.expression {e : Expr} (h : WordedExpr e) : WordedStmt (.expression e) :=
  fun c hc => ⟨h c hc, hc⟩

theorem WordedStmt.loop {e : Expr} {body : Stmt} (he : WordedExpr e) (hb : WordedStmt body) :
    WordedStmt (.loop e body) := by
  refine fun c hc => ⟨fun σ hσ => ?_, hc⟩
  rcases List.mem_append.1 hσ with hσ | hσ
  · exact he c hc σ hσ
  · exact (hb c hc).1 σ hσ

theorem exprStmt_worded {w : List Token} {s : Stmt} (h : ReadsExprStmt w s) (hw : ∀ t ∈ w, t.Spelled) :
    WordedStmt s := by
  obtain ⟨he, -⟩ := h
  exact .expression (expr_worded he fun t ht => hw t (by simp [ht]))

theorem var_worded {w : List Token} {s : Stmt} (h : ReadsVar w s) (hw : ∀ t ∈ w, t.Spelled) : WordedStmt s := by
  intro c hc
  cases h with
  | bare hn _ => exact ⟨by rintro σ ⟨⟩, hc.declare ((hw _ (by simp)).ne_this hn)⟩
  | initialized hn _ he _ =>
    have hthis := (hw _ (by simp)).ne_this hn
    exact ⟨expr_worded he (fun t ht => hw t (by simp [ht])) _ (hc.inInitializer hthis), hc.declare hthis⟩

theorem forStart_worded {w : List Token} {s : Stmt} (h : ReadsForStart w (some s)) (hw : ∀ t ∈ w, t.Spelled) :
    WordedStmt s := by
  cases h with
  | var _ h => exact var_worded h fun t ht => hw t (by simp [ht])
  | expression h => exact exprStmt_worded h hw

theorem optional_worded {w : List Token} {e : Expr} (h : ReadsOptional w (some e)) (hw : ∀ t ∈ w, t.Spelled) :
    WordedExpr e := by
  cases h with
  | some h => exact expr_worded h hw

/-- The tree that is built for a `for` has the words of its clauses. -/
theorem for_worded {start : Option Stmt} {c increment : Option Expr} {body : Stmt}
    (hs : ∀ s ∈ start, WordedStmt s) (hc : ∀ e ∈ c, WordedExpr e) (hi : ∀ e ∈ increment, WordedExpr e)
    (hb : WordedStmt body) :
    WordedStmt (withStart start (.loop (c.getD (.literal (.bool true))) (withIncrement increment body))) := by
  have hbody : WordedStmt (withIncrement increment body) := by
    cases increment with
    | none => exact hb
    | some e => exact .block (.cons hb (.cons (.expression (hi e rfl)) .nil))
  have hcond : WordedExpr (c.getD (.literal (.bool true))) := by
    cases c with
    | none => rintro c hc σ ⟨⟩
    | some e => exact hc e rfl
  cases start with
  | none => exact .loop hcond hbody
  | some s => exact .block (.cons (hs s rfl) (.cons (.loop hcond hbody) .nil))

/-- Parameters are identifiers, and so none is the word `this`. -/
theorem someParameters_are_identifiers {w ps : List Token} (h : ReadsSomeParameters w ps) :
    ∀ p ∈ ps, p ∈ w ∧ p.kind = .identifier := by
  induction h with
  | one hp =>
    intro p hm
    rw [List.mem_singleton.1 hm]
    exact ⟨by simp, hp⟩
  | cons hp _ _ ih =>
    intro p hm
    rcases List.mem_cons.1 hm with rfl | hm
    · exact ⟨by simp, hp⟩
    · obtain ⟨hmem, hk⟩ := ih p hm
      exact ⟨by simp [hmem], hk⟩

theorem parameters_are_identifiers {w ps : List Token} (h : ReadsParameters w ps) :
    ∀ p ∈ ps, p ∈ w ∧ p.kind = .identifier := by
  cases h with
  | nil => rintro p ⟨⟩
  | some h _ => exact someParameters_are_identifiers h

theorem function_name {w : List Token} {f : Function} (h : ReadsFunction w f) (hw : ∀ t ∈ w, t.Spelled) :
    f.name.lexeme ≠ "this" := by
  obtain ⟨hn, -, -, -, -⟩ := h
  exact (hw _ List.mem_cons_self).ne_this hn

mutual

theorem stmt_worded {w : List Token} {s : Stmt} {isOpen : Bool} :
    ReadsStmt w s isOpen → (∀ t ∈ w, t.Spelled) → WordedStmt s
  | .expression h, hw => exprStmt_worded h hw
  | .print _ h _, hw => fun c hc => ⟨expr_worded h (fun t ht => hw t (by simp [ht])) c hc, hc⟩
  | @ReadsStmt.return _ _ _ none _ _ _, _ => fun c hc => ⟨by rintro σ ⟨⟩, hc⟩
  | @ReadsStmt.return _ _ _ (some e) _ h _, hw =>
    fun c hc => ⟨optional_worded h (fun t ht => hw t (by simp [ht])) c hc, hc⟩
  | .break _ _, _ => fun c hc => ⟨by rintro σ ⟨⟩, hc⟩
  | .if _ _ h _ hyes, hw => by
    refine fun c hc => ⟨fun σ hσ => ?_, hc⟩
    rcases List.mem_append.1 hσ with hσ | hσ
    · exact expr_worded h (fun t ht => hw t (by simp [ht])) c hc σ hσ
    · exact (stmt_worded hyes (fun t ht => hw t (by simp [ht])) c hc).1 σ hσ
  | .ifElse _ _ h _ hyes _ hno, hw => by
    refine fun c hc => ⟨fun σ hσ => ?_, hc⟩
    rcases List.mem_append.1 hσ with hσ | hσ
    · rcases List.mem_append.1 hσ with hσ | hσ
      · exact expr_worded h (fun t ht => hw t (by simp [ht])) c hc σ hσ
      · exact (stmt_worded hyes (fun t ht => hw t (by simp [ht])) c hc).1 σ hσ
    · exact (stmt_worded hno (fun t ht => hw t (by simp [ht])) c hc).1 σ hσ
  | .while _ _ h _ hbody, hw =>
    .loop (expr_worded h fun t ht => hw t (by simp [ht])) (stmt_worded hbody fun t ht => hw t (by simp [ht]))
  | .for _ _ hstart hc _ hi _ hbody, hw =>
    for_worded (by rintro s rfl; exact forStart_worded hstart fun t ht => hw t (by simp [ht]))
      (by rintro e rfl; exact optional_worded hc fun t ht => hw t (by simp [ht]))
      (by rintro e rfl; exact optional_worded hi fun t ht => hw t (by simp [ht]))
      (stmt_worded hbody fun t ht => hw t (by simp [ht]))
  | .block h, hw => .block (block_worded h hw)

theorem block_worded {w : List Token} {body : List Stmt} :
    ReadsBlock w body → (∀ t ∈ w, t.Spelled) → WordedStmts body
  | .mk _ h _, hw => declarations_worded h fun t ht => hw t (by simp [ht])

theorem declaration_worded {w : List Token} {s : Stmt} {isOpen : Bool} :
    ReadsDeclaration w s isOpen → (∀ t ∈ w, t.Spelled) → WordedStmt s
  | @ReadsDeclaration.class _ name _ _ _ _ _ hn _ h _, hw => by
    intro c hc
    have hd : (c.declare name .class).Worded := hc.declare ((hw name (by simp)).ne_this hn)
    exact ⟨methods_worded h (fun t ht => hw t (by simp [ht])) _ hd.inClass, hd⟩
  | .function (f := f) _ h, hw => by
    intro c hc
    have hd : (c.declare f.name .function).Worded :=
      hc.declare (function_name h fun t ht => hw t (by simp [ht]))
    exact ⟨function_worded h (fun t ht => hw t (by simp [ht])) _ _ hd, hd⟩
  | .var _ h, hw => var_worded h fun t ht => hw t (by simp [ht])
  | .statement h, hw => stmt_worded h hw

theorem declarations_worded {w : List Token} {ss : List Stmt} :
    ReadsDeclarations w ss → (∀ t ∈ w, t.Spelled) → WordedStmts ss
  | .nil, _ => .nil
  | .cons h hs, hw =>
    .cons (declaration_worded h fun t ht => hw t (by simp [ht]))
      (declarations_worded hs fun t ht => hw t (by simp [ht]))

theorem function_worded {w : List Token} {f : Function} :
    ReadsFunction w f → (∀ t ∈ w, t.Spelled) → WordedFunction f
  | .mk _ _ hps _ hb, hw => by
    intro place c hc
    refine block_worded hb (fun t ht => hw t (by simp [ht])) _ (hc.inBody fun p hp => ?_)
    obtain ⟨hm, hk⟩ := parameters_are_identifiers hps p hp
    exact (hw p (by simp [hm])).ne_this hk

theorem methods_worded {w : List Token} {fs : List Function} :
    ReadsMethods w fs → (∀ t ∈ w, t.Spelled) → WordedFunctions fs
  | .nil, _ => by rintro c hc σ ⟨⟩
  | .cons h hs, hw => by
    intro c hc σ hσ
    rcases List.mem_append.1 hσ with hσ | hσ
    · exact function_worded h (fun t ht => hw t (by simp [ht])) _ c hc σ hσ
    · exact methods_worded hs (fun t ht => hw t (by simp [ht])) c hc σ hσ

end

theorem exprStmt_formed {w : List Token} {s : Stmt} (h : ReadsExprStmt w s) : s.isDeclaration = false ∧ s.Formed := by
  obtain ⟨-, -⟩ := h
  exact ⟨rfl, trivial⟩

theorem var_formed {w : List Token} {s : Stmt} (h : ReadsVar w s) : s.Formed := by
  cases h <;> trivial

theorem forStart_formed {w : List Token} {s : Stmt} (h : ReadsForStart w (some s)) : s.Formed := by
  cases h with
  | var _ h => exact var_formed h
  | expression h => exact (exprStmt_formed h).2

/-- No declaration is the body of a loop that is built for a `for`: its first clause is in a block of its own. -/
theorem for_formed {start : Option Stmt} {c : Expr} {increment : Option Expr} {body : Stmt}
    (hs : ∀ s ∈ start, s.Formed) (hb : body.isDeclaration = false ∧ body.Formed) :
    (withStart start (.loop c (withIncrement increment body))).isDeclaration = false ∧
      (withStart start (.loop c (withIncrement increment body))).Formed := by
  have hbody : (withIncrement increment body).isDeclaration = false ∧ (withIncrement increment body).Formed := by
    cases increment with
    | none => exact hb
    | some e => exact ⟨rfl, hb.2, trivial, trivial⟩
  cases start with
  | none => exact ⟨rfl, hbody⟩
  | some s => exact ⟨rfl, hs s rfl, hbody, trivial⟩

mutual

/-- Declarations stand where the grammar has them. -/
theorem stmt_formed {w : List Token} {s : Stmt} {isOpen : Bool} :
    ReadsStmt w s isOpen → s.isDeclaration = false ∧ s.Formed
  | .expression h => exprStmt_formed h
  | .print _ _ _ | .return _ _ _ | .break _ _ => ⟨rfl, trivial⟩
  | .if _ _ _ _ hyes => ⟨rfl, stmt_formed hyes⟩
  | .ifElse _ _ _ _ hyes _ hno => ⟨rfl, stmt_formed hyes, stmt_formed hno⟩
  | .while _ _ _ _ hbody => ⟨rfl, stmt_formed hbody⟩
  | .for _ _ hstart _ _ _ _ hbody =>
    for_formed (by rintro s rfl; exact forStart_formed hstart) (stmt_formed hbody)
  | .block (.mk _ h _) => ⟨rfl, declarations_formed h⟩

theorem declaration_formed {w : List Token} {s : Stmt} {isOpen : Bool} : ReadsDeclaration w s isOpen → s.Formed
  | .class _ _ _ h _ => methods_formed h
  | .function _ h => function_formed h
  | .var _ h => var_formed h
  | .statement h => (stmt_formed h).2

theorem declarations_formed {w : List Token} {ss : List Stmt} : ReadsDeclarations w ss → Stmt.FormedAll ss
  | .nil => trivial
  | .cons h hs => ⟨declaration_formed h, declarations_formed hs⟩

theorem function_formed {w : List Token} {f : Function} : ReadsFunction w f → f.Formed
  | .mk _ _ _ _ (.mk _ h _) => declarations_formed h

theorem methods_formed {w : List Token} {fs : List Function} : ReadsMethods w fs → Function.FormedAll fs
  | .nil => trivial
  | .cons h hs => ⟨function_formed h, methods_formed hs⟩

end

end Grammar

end LoxLang
