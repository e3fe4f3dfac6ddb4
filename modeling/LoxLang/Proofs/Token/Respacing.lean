import LoxLang.Proofs.Token.Items

namespace LoxLang

open Piece

/-- Blanks and comments, each line comment with the newline that ends it. -/
inductive Filler : List Char → Prop
  | nil : Filler []
  | blank {c : Char} {rest : List Char} (h : isBlank c) (hrest : Filler rest) : Filler (c :: rest)
  | block {body rest : List Char} (h : ¬['*', '/'] <:+: body) (hrest : Filler rest) :
    Filler ('/' :: '*' :: body ++ '*' :: '/' :: rest)
  | line {body rest : List Char} (h : '\n' ∉ body) (hrest : Filler rest) : Filler ('/' :: '/' :: body ++ '\n' :: rest)

/-- A blank with any filler after it. -/
inductive Separator : List Char → Prop
  | intro {c : Char} {rest : List Char} (h : isBlank c) (hrest : Filler rest) : Separator (c :: rest)

/-- What may stand at the ends of a text. -/
def Margin (text : List Char) : Prop := text = [] ∨ Separator text

/-- Texts in order with one separator between each two. -/
inductive Spaced : List String → List Char → Prop
  | none : Spaced [] []
  | one (l : String) : Spaced [l] l.toList
  | cons (l : String) {separator text : List Char} {l' : String} {ls : List String} (h : Separator separator)
    (hrest : Spaced (l' :: ls) text) : Spaced (l :: l' :: ls) (l.toList ++ separator ++ text)

/-- Texts in order with one separator between each two, and maybe others around them all. -/
inductive Respaced : List String → String → Prop
  | intro {left text right : List Char} {ls : List String} (hleft : Margin left) (h : Spaced ls text)
    (hright : Margin right) : Respaced ls (String.ofList (left ++ text ++ right))

/-- The token without its line. -/
def Token.unlined (t : Token) : Token.Kind × String := (t.kind, t.lexeme)

namespace Piece

variable {c w : Char} {cs l rest : List Char} {k : Token.Kind}

theorem cutAtClose?_eq {body : List Char} (h : ¬['*', '/'] <:+: body) (rest : List Char) :
    cutAtClose? (body ++ '*' :: '/' :: rest) = some (body, rest) := by
  induction body with
  | nil => rfl
  | cons c body ih =>
    rw [List.infix_cons_iff, not_or] at h
    have hne : ∀ tail, c = '*' → body ++ '*' :: '/' :: rest = '/' :: tail → False := by
      rintro tail rfl htail
      cases body with
      | nil => cases htail
      | cons d body =>
        obtain ⟨rfl, -⟩ := List.cons.inj htail
        exact h.1 ⟨body, rfl⟩
    rw [List.cons_append, cutAtClose?.eq_3 _ _ hne, ih h.2]
    rfl

theorem first_of_blank (h : isBlank c) (cs : List Char) : first c cs = (⟨.blank, [c]⟩, cs) := by
  obtain ⟨hdigit, hword⟩ := isBlank_apart h
  have hquote : c ≠ '"' := by
    rintro rfl
    cases h
  unfold first
  rw [if_neg hquote, if_neg (isBlank_ends h).2.2.2.2.1, if_neg (by simp [hdigit]), if_neg (by simp [hword]), if_pos h]

theorem first_slash (cs : List Char) : first '/' cs = slash cs := rfl

/-- A line comment goes as far as its newline, and no farther. -/
theorem first_line {body : List Char} (h : '\n' ∉ body) (rest : List Char) :
    first '/' ('/' :: body ++ '\n' :: rest) = (⟨.comment, '/' :: '/' :: body⟩, '\n' :: rest) := by
  have hbody : ∀ d ∈ body, (d != '\n') = true := by
    intro d hd
    rw [bne_iff_ne]
    rintro rfl
    exact h hd
  rw [first_slash]
  simp only [slash, List.cons_append]
  rw [List.takeWhile_append_of_pos hbody, List.dropWhile_append_of_pos hbody]
  simp

theorem first_block {body : List Char} (h : ¬['*', '/'] <:+: body) (rest : List Char) :
    first '/' ('*' :: body ++ '*' :: '/' :: rest) = (⟨.comment, '/' :: '*' :: body ++ ['*', '/']⟩, rest) := by
  rw [first_slash]
  simp only [slash, List.cons_append]
  rw [cutAtClose?_eq h]

end Piece

/-- The text is cut into these tokens, and nothing of it is in error. -/
structure Reads (text : List Char) (ts : List (Token.Kind × String)) : Prop where
  errors : ∀ line, (Item.before line (Piece.ofSource text)).filterMap Item.error? = []
  tokens : ∀ line, ((Item.before line (Piece.ofSource text)).filterMap Item.token?).map Token.unlined = ts

namespace Reads

variable {c : Char} {cs l rest : List Char} {k : Token.Kind} {p : Piece} {ts : List (Token.Kind × String)}

theorem nil : Reads [] [] := by
  constructor <;> rw [Piece.ofSource] <;> exact fun _ => rfl

/-- A piece that yields nothing. -/
theorem skip (hfirst : first c cs = (p, rest)) (hp : ∀ line, p.item? line = none) (h : Reads rest ts) :
    Reads (c :: cs) ts := by
  have hbefore : ∀ line, Item.before line (Piece.ofSource (c :: cs)) =
      Item.before (line + p.newlines) (Piece.ofSource rest) := by
    intro line
    rw [Piece.ofSource, hfirst, Item.before, hp]
    rfl
  constructor
  · intro line
    rw [hbefore]
    exact h.errors _
  · intro line
    rw [hbefore]
    exact h.tokens _

theorem token (hfirst : first c cs = (⟨.token k, l⟩, rest)) (h : Reads rest ts) :
    Reads (c :: cs) ((k, String.ofList l) :: ts) := by
  have hbefore : ∀ line, ∃ line', Item.before line (Piece.ofSource (c :: cs)) =
      .token ⟨k, String.ofList l, line⟩ :: Item.before line' (Piece.ofSource rest) := by
    intro line
    rw [Piece.ofSource, hfirst, Item.before]
    exact ⟨_, rfl⟩
  constructor
  · intro line
    obtain ⟨line', heq⟩ := hbefore line
    rw [heq]
    exact h.errors _
  · intro line
    obtain ⟨line', heq⟩ := hbefore line
    rw [heq]
    exact congrArg _ (h.tokens line')

end Reads

section Layout

variable {filler rest text : List Char} {k : Token.Kind} {ts : List (Token.Kind × String)}

/-- Fillers are nothing to what follows them. -/
theorem Filler.reads (hfiller : Filler filler) (h : Reads rest ts) : Reads (filler ++ rest) ts := by
  induction hfiller with
  | nil => exact h
  | blank hc _ ih => exact .skip (first_of_blank hc _) (fun _ => rfl) ih
  | @block body more hbody _ ih =>
    have hfirst := first_block hbody (more ++ rest)
    rw [List.cons_append] at hfirst
    simpa using Reads.skip hfirst (fun _ => rfl) ih
  | @line body more hbody _ ih =>
    have hfirst := first_line hbody (more ++ rest)
    rw [List.cons_append] at hfirst
    have hnewline := Reads.skip (first_of_blank (c := '\n') rfl (more ++ rest)) (fun _ => rfl) ih
    simpa using Reads.skip hfirst (fun _ => rfl) hnewline

theorem Separator.reads {separator : List Char} (hsep : Separator separator) (h : Reads rest ts) :
    Reads (separator ++ rest) ts := by
  cases hsep with
  | intro hc hfiller => exact (Filler.blank hc hfiller).reads h

theorem Margin.reads {margin : List Char} (hmargin : Margin margin) (h : Reads rest ts) :
    Reads (margin ++ rest) ts := by
  rcases hmargin with rfl | hsep
  · exact h
  · exact hsep.reads h

/-- A lexeme is cut as itself where a blank follows, or nothing. -/
theorem Lexeme.reads {l : List Char} (hl : Lexeme l k) (hrest : ∀ w ∈ rest.head?, isBlank w) (h : Reads rest ts) :
    Reads (l ++ rest) ((k, String.ofList l) :: ts) := by
  obtain ⟨c, cs, rfl, hfirst⟩ := hl.first_eq
  rw [List.cons_append]
  refine .token ?_ h
  cases rest with
  | nil =>
    rw [List.append_nil]
    exact hfirst
  | cons w more =>
    have hclosed : (first c cs).1.form.isClosed := by rw [hfirst]; rfl
    have hcomment : (first c cs).1.form ≠ .comment := by rw [hfirst]; nofun
    have hblank := first_blank (hrest w rfl) hclosed (fun h => absurd h hcomment) more
    rwa [hfirst] at hblank

theorem Token.reads {t : Token} (ht : Lexeme t.lexeme.toList t.kind) (hrest : ∀ w ∈ rest.head?, isBlank w)
    (h : Reads rest ts) : Reads (t.lexeme.toList ++ rest) (t.unlined :: ts) := by
  have htoken := ht.reads hrest h
  rwa [String.ofList_toList] at htoken

/-- A separator begins with a blank, so the lexeme before it is cut there. -/
theorem Separator.head {separator : List Char} (hsep : Separator separator) (rest : List Char) :
    ∀ w ∈ (separator ++ rest).head?, isBlank w := by
  cases hsep with
  | intro hc hfiller =>
    rintro _ ⟨⟩
    exact hc

theorem Margin.head {margin : List Char} (hmargin : Margin margin) : ∀ w ∈ margin.head?, isBlank w := by
  rcases hmargin with rfl | hsep
  · nofun
  · rw [← List.append_nil margin]
    exact hsep.head []

/-- The end of a text yields nothing, whether something stands there or not. -/
theorem Margin.reads_nil {margin : List Char} (hmargin : Margin margin) : Reads margin [] := by
  rw [← List.append_nil margin]
  exact hmargin.reads .nil

theorem Spaced.reads {tokens : List Token} {right : List Char} (h : Spaced (tokens.map Token.lexeme) text)
    (hlexeme : ∀ t ∈ tokens, Lexeme t.lexeme.toList t.kind) (hright : Margin right) :
    Reads (text ++ right) (tokens.map Token.unlined) := by
  generalize hls : tokens.map Token.lexeme = ls at h
  induction h generalizing tokens with
  | none =>
    rw [List.map_eq_nil_iff] at hls
    rw [hls]
    exact hright.reads_nil
  | one l =>
    obtain ⟨t, ts, rfl, rfl, hts⟩ := List.map_eq_cons_iff.1 hls
    rw [List.map_eq_nil_iff] at hts
    subst hts
    exact Token.reads (hlexeme t List.mem_cons_self) hright.head hright.reads_nil
  | cons l hsep _ ih =>
    obtain ⟨t, ts, rfl, rfl, hts⟩ := List.map_eq_cons_iff.1 hls
    have hrest := ih (fun u hu => hlexeme u (List.mem_cons_of_mem _ hu)) hts
    rw [List.append_assoc, List.append_assoc]
    exact Token.reads (hlexeme t List.mem_cons_self) (hsep.head _) (hsep.reads hrest)

end Layout

namespace Source

/-- The tokens of a source before its end have lexemes for their texts. -/
theorem tokens_lexeme {source : String} {t : Token} (ht : t ∈ tokens source) : Lexeme t.lexeme.toList t.kind := by
  rw [tokens_eq] at ht
  obtain ⟨i, hi, hit⟩ := List.mem_filterMap.1 ht
  cases i with
  | error e => cases hit
  | token u =>
    cases hit
    exact (partition_ofSource 1 source.toList).isLexeme hi

/-- The lexemes of a source with any separators between them are the same tokens again, and nothing else. -/
theorem respaced_tokens {source text : String} (h : Respaced ((tokens source).map Token.lexeme) text) :
    LexicalError.ofSource text = [] ∧
      (Token.ofSource text).map Token.unlined = (tokens source).map Token.unlined ++ [(.finish, "")] := by
  obtain ⟨hleft, hspaced, hright⟩ := h
  next left body right =>
  have hreads : Reads (left ++ body ++ right) ((tokens source).map Token.unlined) := by
    rw [List.append_assoc]
    exact hleft.reads (hspaced.reads (fun t ht => tokens_lexeme ht) hright)
  constructor
  · rw [lexicalErrors_eq, items, String.toList_ofList]
    exact hreads.errors 1
  · rw [token_ofSource_eq, List.map_append, items, String.toList_ofList, hreads.tokens]
    rfl

/-- A character that begins nothing keeps lexemes apart that would be others in one; so does a separator. -/
theorem respaced_tokens_apart :
    Respaced ((tokens "1.é5=é=").map Token.lexeme) "\n//é\"\n1\t/*1.*/. 5\r= =" ∧
      LexicalError.ofSource "\n//é\"\n1\t/*1.*/. 5\r= =" = [] ∧
      (Token.ofSource "\n//é\"\n1\t/*1.*/. 5\r= =").map Token.unlined =
        (tokens "1.é5=é=").map Token.unlined ++ [(.finish, "")] := by
  have hlexemes : (tokens "1.é5=é=").map Token.lexeme = ["1", ".", "5", "=", "="] := by decide +kernel
  have hline : Filler ('/' :: '/' :: ['é', '"'] ++ '\n' :: []) := .line (by decide) .nil
  have hblock : Filler ('/' :: '*' :: ['1', '.'] ++ '*' :: '/' :: []) := .block (by decide) .nil
  have hleft : Separator ('\n' :: ('/' :: '/' :: ['é', '"'] ++ '\n' :: [])) := .intro rfl hline
  have hequals : Spaced ["5", "=", "="] "5\r= =".toList :=
    .cons "5" (.intro rfl .nil) (.cons "=" (.intro rfl .nil) (.one "="))
  have hspaced : Spaced ["1", ".", "5", "=", "="] "1\t/*1.*/. 5\r= =".toList :=
    .cons "1" (.intro rfl hblock) (.cons "." (.intro rfl .nil) hequals)
  have h : Respaced ((tokens "1.é5=é=").map Token.lexeme) "\n//é\"\n1\t/*1.*/. 5\r= =" := by
    rw [hlexemes]
    exact .intro (.inr hleft) hspaced (.inl rfl)
  exact ⟨h, respaced_tokens h⟩

end Source

end LoxLang
