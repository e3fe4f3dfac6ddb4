import LoxLang.Token.Lexer
import LoxLang.Proofs.Number.Nearest

namespace LoxLang

namespace Mark

def text : Mark → String
  | leftParen => "("
  | rightParen => ")"
  | leftBrace => "\x7b"
  | rightBrace => "\x7d"
  | comma => ","
  | dot => "."
  | minus => "-"
  | plus => "+"
  | semicolon => ";"
  | slash => "/"
  | star => "*"
  | question => "?"
  | colon => ":"
  | bang => "!"
  | bangEqual => "!="
  | equal => "="
  | equalEqual => "=="
  | greater => ">"
  | greaterEqual => ">="
  | less => "<"
  | lessEqual => "<="

theorem text_of_ofChar? {c : Char} {m : Mark} (h : ofChar? c = some m) : m.text.toList = [c] := by
  unfold ofChar? at h
  split at h <;> cases h <;> rfl

theorem text_of_withEqual? {c : Char} {m longer : Mark} (h : ofChar? c = some m) (h' : m.withEqual? = some longer) :
    longer.text.toList = [c, '='] := by
  unfold ofChar? at h
  split at h <;> cases h <;> cases h' <;> rfl

/-- A mark is a character, or one that an equals sign makes another of. -/
theorem text_cases (m : Mark) : (∃ c, ofChar? c = some m ∧ m.text.toList = [c]) ∨
    ∃ c shorter, ofChar? c = some shorter ∧ shorter.withEqual? = some m ∧ m.text.toList = [c, '='] := by
  cases m with
  | bangEqual => exact .inr ⟨'!', bang, rfl, rfl, rfl⟩
  | equalEqual => exact .inr ⟨'=', equal, rfl, rfl, rfl⟩
  | greaterEqual => exact .inr ⟨'>', greater, rfl, rfl, rfl⟩
  | lessEqual => exact .inr ⟨'<', less, rfl, rfl, rfl⟩
  | _ => exact .inl ⟨_, rfl, rfl⟩

end Mark

open Piece

/-- The texts that tokens have, and the kind that each determines. -/
inductive Lexeme : List Char → Token.Kind → Prop
  | mark (m : Mark) : Lexeme m.text.toList (.mark m)
  | string {text : List Char} (h : '"' ∉ text) : Lexeme ('"' :: text ++ ['"']) (.string (String.ofList text))
  | whole {digits : List Char} {x : Number} (hne : digits ≠ []) (hd : ∀ d ∈ digits, d.isDigit)
    (hx : Number.Rounds (Number.quantity digits []) x) : Lexeme digits (.number x)
  | fraction {whole fraction : List Char} {x : Number} (hne : whole ≠ []) (hd : ∀ d ∈ whole, d.isDigit)
    (hne' : fraction ≠ []) (hd' : ∀ d ∈ fraction, d.isDigit) (hx : Number.Rounds (Number.quantity whole fraction) x) :
    Lexeme (whole ++ '.' :: fraction) (.number x)
  | keyword (k : Keyword) : Lexeme k.word.toList (.keyword k)
  | identifier {c : Char} {cs : List Char} (hc : isWordStart c) (hcs : ∀ d ∈ cs, isWordPart d)
    (hk : ∀ k : Keyword, k.word.toList ≠ c :: cs) : Lexeme (c :: cs) .identifier

/-- The texts between tokens. -/
inductive Skipped : List Char → Prop
  | blank {c : Char} (h : isBlank c) : Skipped [c]
  | line {body : List Char} (h : '\n' ∉ body) : Skipped ('/' :: '/' :: body)
  | block {body : List Char} (h : ¬['*', '/'] <:+: body) : Skipped ('/' :: '*' :: body ++ ['*', '/'])

namespace Source

/-- Whitespace begins the text, or what opens a comment. -/
def Skips (text : List Char) : Prop :=
  (∃ c ∈ text.head?, isBlank c) ∨ ['/', '/'] <+: text ∨ ['/', '*'] <+: text

def LexemeBegins (text : List Char) : Prop := ∃ l k, Lexeme l k ∧ l <+: text

def SkippedBegins (text : List Char) : Prop := ∃ l, Skipped l ∧ l <+: text

/-- The longest lexeme with which the text begins. -/
structure Longest (text lexeme : List Char) (kind : Token.Kind) : Prop where
  isLexeme : Lexeme lexeme kind
  begins : lexeme <+: text
  longest : ∀ l k, Lexeme l k → l <+: text → l.length ≤ lexeme.length

/-- What can come of a text where a piece begins. -/
inductive Outcome where
  | token
  | nothing
  | error (cause : LexicalError.Cause)
deriving DecidableEq, Repr

/-- The text is one from which this has to come. -/
def Outcome.CalledFor (text : List Char) : Outcome → Prop
  | token => LexemeBegins text ∧ ¬Skips text
  | nothing => SkippedBegins text
  | error .unexpectedCharacter => ∀ l, ((∃ k, Lexeme l k) ∨ Skipped l) → l.head? ≠ text.head?
  | error .unterminatedString => ∃ rest, text = '"' :: rest ∧ '"' ∉ rest
  | error .unterminatedComment => ∃ rest, text = '/' :: '*' :: rest ∧ ¬['*', '/'] <:+: rest

end Source

/-- A mark begins neither a string nor a number nor a word, and is no whitespace. -/
theorem Mark.ofChar?_apart {c : Char} {m : Mark} (h : ofChar? c = some m) :
    c ≠ '"' ∧ c.isDigit = false ∧ isWordStart c = false ∧ isBlank c = false := by
  unfold ofChar? at h
  split at h <;> cases h <;> decide

theorem Keyword.word_cases (k : Keyword) :
    ∃ c cs, k.word.toList = c :: cs ∧ isWordStart c ∧ ∀ d ∈ cs, isWordPart d := by
  have hparts : ∀ cs : List Char, cs.all isWordPart = true → ∀ d ∈ cs, isWordPart d :=
    fun cs h => List.all_eq_true.1 h
  cases k <;> exact ⟨_, _, rfl, by decide, hparts _ (by decide)⟩

namespace Piece

theorem isBlank_apart {c : Char} (h : isBlank c) : c.isDigit = false ∧ isWordStart c = false := by
  simp only [isBlank, Bool.or_eq_true, beq_iff_eq] at h
  rcases h with ((rfl | rfl) | rfl) | rfl <;> decide

theorem isWordStart_apart {c : Char} (h : isWordStart c) :
    c ≠ '"' ∧ c ≠ '/' ∧ c.isDigit = false ∧ isBlank c = false := by
  refine ⟨fun hc => ?_, fun hc => ?_, Bool.eq_false_iff.2 fun hd => ?_, Bool.eq_false_iff.2 fun hb => ?_⟩
  · rw [hc] at h
    exact absurd h (by decide)
  · rw [hc] at h
    exact absurd h (by decide)
  · unfold isWordStart at h
    rw [Bool.or_eq_true, beq_iff_eq] at h
    rcases h with h | rfl
    · delta Char.isAlpha Char.isUpper Char.isLower at h
      delta Char.isDigit at hd
      grind
    · exact absurd hd (by decide)
  · rw [(isBlank_apart hb).2] at h
    cases h

theorem isDigit_apart {c : Char} (h : c.isDigit) : c ≠ '"' ∧ c ≠ '/' ∧ isBlank c = false := by
  refine ⟨fun hc => ?_, fun hc => ?_, Bool.eq_false_iff.2 fun hb => ?_⟩
  · rw [hc] at h
    exact absurd h (by decide)
  · rw [hc] at h
    exact absurd h (by decide)
  · rw [(isBlank_apart hb).1] at h
    cases h

end Piece

namespace Lexeme

variable {c : Char} {l : List Char} {k : Token.Kind}

theorem ne_nil (h : Lexeme l k) : l ≠ [] := by
  cases h with
  | mark m => cases m <;> decide
  | whole hne _ _ => exact hne
  | keyword k => cases k <;> decide
  | _ => simp

/-- The first character of a lexeme determines its shape. -/
theorem shape (h : Lexeme (c :: l) k) :
    (∃ m, Mark.ofChar? c = some m ∧ (l = [] ∨ l = ['='] ∧ m.withEqual?.isSome)) ∨
    (c = '"' ∧ ∃ text, '"' ∉ text ∧ l = text ++ ['"']) ∨
    (c.isDigit ∧ ((∀ d ∈ l, d.isDigit) ∨
      ∃ whole fraction, l = whole ++ '.' :: fraction ∧ (∀ d ∈ whole, d.isDigit) ∧ fraction ≠ [] ∧
        ∀ d ∈ fraction, d.isDigit)) ∨
    (isWordStart c ∧ ∀ d ∈ l, isWordPart d) := by
  generalize hw : c :: l = w at h
  cases h with
  | mark m =>
    rcases m.text_cases with ⟨d, hd, ht⟩ | ⟨d, shorter, hd, he, ht⟩
    all_goals
      rw [ht] at hw
      obtain ⟨rfl, rfl⟩ := List.cons.inj hw
    · exact .inl ⟨m, hd, .inl rfl⟩
    · exact .inl ⟨shorter, hd, .inr ⟨rfl, by rw [he]; rfl⟩⟩
  | string hq =>
    obtain ⟨rfl, rfl⟩ := List.cons.inj hw
    exact .inr (.inl ⟨rfl, _, hq, rfl⟩)
  | whole hne hd _ =>
    subst hw
    exact .inr (.inr (.inl ⟨hd c List.mem_cons_self, .inl fun d h => hd d (List.mem_cons_of_mem _ h)⟩))
  | @fraction whole fraction _ hne hd hne' hd' _ =>
    obtain ⟨d, ds, rfl⟩ := List.exists_cons_of_ne_nil hne
    obtain ⟨rfl, rfl⟩ := List.cons.inj hw
    exact .inr (.inr (.inl ⟨hd c List.mem_cons_self,
      .inr ⟨ds, fraction, rfl, fun d h => hd d (List.mem_cons_of_mem _ h), hne', hd'⟩⟩))
  | keyword k' =>
    obtain ⟨d, ds, hk, hd, hds⟩ := k'.word_cases
    rw [hk] at hw
    obtain ⟨rfl, rfl⟩ := List.cons.inj hw
    exact .inr (.inr (.inr ⟨hd, hds⟩))
  | identifier hd hds _ =>
    obtain ⟨rfl, rfl⟩ := List.cons.inj hw
    exact .inr (.inr (.inr ⟨hd, hds⟩))

theorem of_mark {m : Mark} (h : Lexeme (c :: l) k) (hc : Mark.ofChar? c = some m) :
    l = [] ∨ l = ['='] ∧ m.withEqual?.isSome := by
  obtain ⟨hquote, hdigit, hword, -⟩ := Mark.ofChar?_apart hc
  rcases h.shape with ⟨m', hm', hl⟩ | ⟨rfl, -⟩ | ⟨hd, -⟩ | ⟨hs, -⟩
  · rw [hc] at hm'
    cases hm'
    exact hl
  · exact absurd rfl hquote
  · rw [hdigit] at hd
    cases hd
  · rw [hword] at hs
    cases hs

theorem of_quote (h : Lexeme ('"' :: l) k) : ∃ text, '"' ∉ text ∧ l = text ++ ['"'] := by
  rcases h.shape with ⟨m, hm, -⟩ | ⟨-, hl⟩ | ⟨hd, -⟩ | ⟨hs, -⟩
  · exact absurd hm (by simp [Mark.ofChar?])
  · exact hl
  · exact absurd hd (by decide)
  · exact absurd hs (by decide)

theorem of_digit (h : Lexeme (c :: l) k) (hc : c.isDigit) :
    (∀ d ∈ l, d.isDigit) ∨
      ∃ whole fraction, l = whole ++ '.' :: fraction ∧ (∀ d ∈ whole, d.isDigit) ∧ fraction ≠ [] ∧
        ∀ d ∈ fraction, d.isDigit := by
  rcases h.shape with ⟨m, hm, -⟩ | ⟨rfl, -⟩ | ⟨-, hl⟩ | ⟨hs, -⟩
  · rw [(Mark.ofChar?_apart hm).2.1] at hc
    cases hc
  · exact absurd hc (by decide)
  · exact hl
  · rw [(isWordStart_apart hs).2.2.1] at hc
    cases hc

theorem of_wordStart (h : Lexeme (c :: l) k) (hc : isWordStart c) : ∀ d ∈ l, isWordPart d := by
  rcases h.shape with ⟨m, hm, -⟩ | ⟨rfl, -⟩ | ⟨hd, -⟩ | ⟨-, hl⟩
  · rw [(Mark.ofChar?_apart hm).2.2.1] at hc
    cases hc
  · exact absurd hc (by decide)
  · rw [(isWordStart_apart hc).2.2.1] at hd
    cases hd
  · exact hl

/-- No lexeme begins with any other character. -/
theorem begins (h : Lexeme (c :: l) k) :
    c = '"' ∨ c.isDigit ∨ isWordStart c ∨ (Mark.ofChar? c).isSome := by
  rcases h.shape with ⟨m, hm, -⟩ | ⟨hq, -⟩ | ⟨hd, -⟩ | ⟨hs, -⟩
  · exact .inr (.inr (.inr (by rw [hm]; rfl)))
  · exact .inl hq
  · exact .inr (.inl hd)
  · exact .inr (.inr (.inl hs))

end Lexeme

theorem Skipped.ne_nil {l : List Char} (h : Skipped l) : l ≠ [] := by
  cases h <;> simp

namespace Source

variable {l text : List Char}

/-- The first character is one with which a lexeme begins, or what is skipped. -/
def Starts (text : List Char) : Prop := ∃ l, ((∃ k, Lexeme l k) ∨ Skipped l) ∧ l.head? = text.head?

/-- What is skipped begins with whitespace or with what opens a comment. -/
theorem skips_of_skipped (h : Skipped l) (hl : l <+: text) : Skips text := by
  obtain ⟨rest, rfl⟩ := hl
  cases h with
  | blank hc => exact .inl ⟨_, rfl, hc⟩
  | line _ => exact .inr (.inl ⟨_, rfl⟩)
  | @block body _ => exact .inr (.inr ⟨body ++ ['*', '/'] ++ rest, by simp⟩)

theorem starts_of_begins (h : (∃ k, Lexeme l k) ∨ Skipped l) (hl : l <+: text) : Starts text := by
  have hne : l ≠ [] := by
    rcases h with ⟨k, h⟩ | h
    · exact h.ne_nil
    · exact h.ne_nil
  obtain ⟨rest, rfl⟩ := hl
  exact ⟨l, h, (List.head?_append_of_ne_nil l hne).symm⟩

theorem not_skips {c : Char} (hc : isBlank c = false) (hslash : c ≠ '/') (rest : List Char) : ¬Skips (c :: rest) := by
  rintro (⟨d, hd, hb⟩ | ⟨r, hr⟩ | ⟨r, hr⟩)
  · cases hd
    rw [hc] at hb
    cases hb
  · exact hslash (List.cons.inj hr).1.symm
  · exact hslash (List.cons.inj hr).1.symm

theorem openString_apart {rest : List Char} (h : '"' ∉ rest) :
    ¬Skips ('"' :: rest) ∧ ¬LexemeBegins ('"' :: rest) ∧ Starts ('"' :: rest) := by
  refine ⟨not_skips (by decide) (by decide) rest, ?_, ['"', '"'], .inl ⟨_, .string List.not_mem_nil⟩, rfl⟩
  rintro ⟨l, k, hl, more, hmore⟩
  obtain ⟨c, cs, rfl⟩ := List.exists_cons_of_ne_nil hl.ne_nil
  obtain ⟨rfl, rfl⟩ := List.cons.inj hmore
  obtain ⟨text, -, rfl⟩ := hl.of_quote
  exact h (by simp)

theorem openComment_apart {rest : List Char} (h : ¬['*', '/'] <:+: rest) :
    Skips ('/' :: '*' :: rest) ∧ ¬SkippedBegins ('/' :: '*' :: rest) ∧ Starts ('/' :: '*' :: rest) := by
  refine ⟨.inr (.inr ⟨rest, rfl⟩), ?_, ['/'], .inl ⟨_, .mark .slash⟩, rfl⟩
  rintro ⟨l, hl, more, hmore⟩
  cases hl with
  | blank hc =>
    obtain ⟨rfl, -⟩ := List.cons.inj hmore
    exact absurd hc (by decide)
  | line _ => cases hmore
  | @block body _ =>
    obtain ⟨-, hrest⟩ := List.cons.inj hmore
    obtain ⟨-, rfl⟩ := List.cons.inj hrest
    exact h ⟨body, more, by simp⟩

/-- Of the outcomes, a text calls for one at most. -/
theorem Outcome.CalledFor.unique {o o' : Outcome} (h : o.CalledFor text) (h' : o'.CalledFor text) : o = o' := by
  -- What each outcome says of three things: something is skipped, a lexeme begins, something begins.
  have htoken : Outcome.token.CalledFor text → ¬Skips text ∧ LexemeBegins text ∧ Starts text :=
    fun ⟨⟨l, k, hl, hp⟩, hs⟩ => ⟨hs, ⟨l, k, hl, hp⟩, starts_of_begins (.inl ⟨k, hl⟩) hp⟩
  have hnothing : Outcome.nothing.CalledFor text → Skips text ∧ SkippedBegins text ∧ Starts text :=
    fun ⟨l, hl, hp⟩ => ⟨skips_of_skipped hl hp, ⟨l, hl, hp⟩, starts_of_begins (.inr hl) hp⟩
  have hstray : (Outcome.error .unexpectedCharacter).CalledFor text → ¬Starts text :=
    fun h ⟨l, hl, hhead⟩ => h l hl hhead
  have hstring : (Outcome.error .unterminatedString).CalledFor text →
      ¬Skips text ∧ ¬LexemeBegins text ∧ Starts text := by
    rintro ⟨rest, rfl, hq⟩
    exact openString_apart hq
  have hcomment : (Outcome.error .unterminatedComment).CalledFor text →
      Skips text ∧ ¬SkippedBegins text ∧ Starts text := by
    rintro ⟨rest, rfl, hc⟩
    exact openComment_apart hc
  rcases o with _ | _ | _ | _ | _ <;> rcases o' with _ | _ | _ | _ | _ <;> grind

end Source

end LoxLang
