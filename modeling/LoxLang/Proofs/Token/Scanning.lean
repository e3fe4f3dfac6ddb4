import LoxLang.Proofs.Token.Bytes
import LoxLang.Proofs.Token.Munch

namespace LoxLang

open Text

namespace Piece

/-- The kind of the token, if the piece is one. -/
def Form.kind? : Form → Option Token.Kind
  | .token kind => some kind
  | _ => none

/-- The error that the piece is, if it is one. -/
def error? (line : Nat) (p : Piece) : Option LexicalError := (p.item? line).bind Item.error?

end Piece

namespace Scanner

variable {s t : Scanner} {more ds : List Char} {c : Char}

/-- The scanner some bytes and lines further on. -/
def further (s : Scanner) (n lines : Nat) : Scanner :=
  { s with position := s.position + n, line := s.line + lines }

theorem further_further (s : Scanner) (n lines n' lines' : Nat) :
    (s.further n lines).further n' lines' = s.further (n + n') (lines + lines') := by
  simp [further, Nat.add_assoc]

theorem countLine_eq (c : Char) (s : Scanner) : s.countLine c = s.further 0 ([c].count '\n') := by
  unfold countLine
  split
  · next hc =>
    subst hc
    rfl
  · next hc =>
    rw [List.count_singleton, if_neg (by simpa using hc)]
    rfl

/-- The bytes that are left are those behind the position of the scanner. -/
theorem rest?_eq_some_iff : s.rest? = some more ↔ s.position ≤ s.size ∧ (bytes s.source).drop s.position = more := by
  unfold rest?
  split <;> simp [*]

theorem size_eq (h : s.rest? = some more) : s.size = s.position + more.length := by
  obtain ⟨hle, hdrop⟩ := rest?_eq_some_iff.1 h
  have hlength := congrArg List.length hdrop
  rw [List.length_drop, length_bytes] at hlength
  rw [size] at hle ⊢
  omega

theorem rest?_further (h : s.rest? = some (ds ++ more)) (lines : Nat) :
    (s.further ds.length lines).rest? = some more := by
  have hsize := size_eq h
  rw [List.length_append] at hsize
  rw [rest?_eq_some_iff]
  constructor
  · change s.position + ds.length ≤ s.size
    omega
  · change (bytes s.source).drop (s.position + ds.length) = more
    rw [← List.drop_drop, (rest?_eq_some_iff.1 h).2, List.drop_left]

theorem rest?_next (h : s.rest? = some (c :: more)) (lines : Nat) : (s.further 1 lines).rest? = some more := by
  rw [← List.singleton_append] at h
  exact rest?_further h lines

theorem byte?_of_rest? (h : s.rest? = some more) (i : Nat) : s.byte? (s.position + i) = more[i]? := by
  obtain ⟨-, rfl⟩ := rest?_eq_some_iff.1 h
  exact List.getElem?_drop.symm

theorem byte?_position (h : s.rest? = some more) : s.byte? s.position = more.head? := by
  rw [List.head?_eq_getElem?]
  exact byte?_of_rest? h 0

theorem isAtEnd_eq (h : s.rest? = some more) : s.isAtEnd = more.isEmpty := by
  unfold isAtEnd
  rw [size_eq h]
  cases more with
  | nil => simp
  | cons d ds => simp

/-- The next byte is the first of those left. At the end it is zero, which no test of the scanner takes for anything. -/
theorem peek_eq (h : s.rest? = some more) : s.peek = more.head?.getD '\x00' := by
  rw [peek, byte?_position h]

theorem advance?_eq (h : s.rest? = some (c :: more)) : s.advance? = some (c, s.further 1 0) := by
  unfold advance?
  rw [byte?_position h]
  rfl

theorem accept_eq (h : s.rest? = some more) (c : Char) :
    s.accept c = if more.head? = some c then (true, s.further 1 0) else (false, s) := by
  unfold accept
  rw [byte?_position h]
  rfl

/-- The scanner goes on as far as the property holds of its bytes. -/
theorem advanceWhile_eq {p : Char → Bool} (hp : p '\x00' = false) (h : s.rest? = some more) :
    s.advanceWhile p = some (s.further (more.takeWhile p).length 0) := by
  induction more generalizing s with
  | nil =>
    rw [advanceWhile, if_neg (by simp [peek_eq h, hp])]
    rfl
  | cons c more ih =>
    have hpeek : s.peek = c := peek_eq h
    rw [advanceWhile, hpeek]
    cases hc : p c with
    | true =>
      rw [if_pos rfl]
      split
      · next ht =>
        cases (advance?_eq h).symm.trans ht
        rw [ih (rest?_next h 0), further_further, List.takeWhile_cons_of_pos hc, List.length_cons,
          Nat.add_comm 1]
      · next ht => cases (advance?_eq h).symm.trans ht
    | false =>
      rw [if_neg Bool.false_ne_true, List.takeWhile_cons_of_neg (by simp [hc])]
      rfl

/-- Lines inside a string are counted. -/
theorem advanceToQuote_eq {text : List Char} (h : s.rest? = some more)
    (htext : more.takeWhile (!Piece.isQuote ·) = text) :
    s.advanceToQuote = some (s.further text.length (text.count '\n')) := by
  subst htext
  induction more generalizing s with
  | nil =>
    rw [advanceToQuote, isAtEnd_eq h]
    rfl
  | cons c more ih =>
    have hpeek : s.peek = c := peek_eq h
    rw [advanceToQuote, isAtEnd_eq h, hpeek]
    cases hc : Piece.isQuote c with
    | true =>
      rw [List.takeWhile_cons_of_neg (by simp [hc]), if_pos (by simpa [Piece.isQuote] using hc)]
      rfl
    | false =>
      rw [List.takeWhile_cons_of_pos (by simp [hc]), if_neg (by simpa [Piece.isQuote] using hc)]
      split
      · next ht =>
        cases (advance?_eq h).symm.trans ht
        have hcount : (s.further 1 0).countLine c = s.further 1 ([c].count '\n') := by
          rw [countLine_eq, further_further, Nat.zero_add]
        rw [hcount, ih (rest?_next h _), further_further, List.length_cons, Nat.add_comm 1,
          ← List.count_append, List.singleton_append]
      · next ht => cases (advance?_eq h).symm.trans ht

variable {before cs : List Char}

/-- The scanner stands between two parts of its source. -/
structure At (s : Scanner) (before rest : List Char) : Prop where
  source : s.source.toList = before ++ rest
  position : s.position = (encode before).length

theorem At.rest? {rest : List Char} (h : At s before rest) : s.rest? = some (encode rest) := by
  have hbytes : bytes s.source = encode before ++ encode rest := by
    rw [bytes_eq, h.source, encode_append]
  have hlength := congrArg List.length hbytes
  rw [length_bytes, List.length_append] at hlength
  rw [rest?_eq_some_iff, h.position, size, hlength, hbytes]
  exact ⟨Nat.le_add_right _ _, List.drop_left⟩

/-- One byte of a character has been read, with which a piece begins. -/
structure Begun (s : Scanner) (before : List Char) (c : Char) (cs : List Char) : Prop where
  source : s.source.toList = before ++ c :: cs
  start : s.start = (encode before).length
  position : s.position = s.start + 1
  pending : s.pending = none

/-- The scanner behind the piece at hand. -/
def past (s : Scanner) (p : Piece) : Scanner :=
  { s with position := s.start + (encode p.text).length, line := s.line + p.newlines, pending := p.form.kind? }

theorem Begun.rest? (h : Begun s before c cs) (hc : c.toNat < 128) : s.rest? = some (encode cs) := by
  have hat : At s (before ++ [c]) cs := by
    refine ⟨by rw [h.source, List.append_assoc]; rfl, ?_⟩
    rw [h.position, h.start, encode_append, List.length_append, encode_cons_of_lt hc]
    rfl
  exact hat.rest?

/-- What has been read is the text of the piece. -/
theorem Begun.lexeme_eq {text more : List Char} (h : Begun s before c cs) (hcs : c :: cs = text ++ more) :
    slice? s.source s.start (s.start + (encode text).length) = some (String.ofList text) := by
  rw [h.start]
  refine slice?_eq before text more ?_
  rw [h.source, hcs, List.append_assoc]

theorem Begun.lexeme?_further {text more : List Char} (h : Begun s before c cs) (hcs : c :: cs = text ++ more) {n : Nat}
    (hn : (encode text).length = n + 1) (lines : Nat) : (s.further n lines).lexeme? = some (String.ofList text) := by
  have hposition : s.position + n = s.start + (encode text).length := by
    rw [h.position, hn]
    omega
  unfold lexeme? further
  dsimp only
  rw [hposition]
  exact h.lexeme_eq hcs

theorem Begun.past_token {n lines : Nat} {text : List Char} (h : Begun s before c cs) (kind : Token.Kind)
    (hn : (encode text).length = n + 1) (hlines : text.count '\n' = lines) :
    (s.further n lines).found kind = s.past ⟨.token kind, text⟩ := by
  unfold further found past Piece.newlines
  rw [hn, hlines, h.position, Nat.add_assoc, Nat.add_comm 1]
  rfl

theorem Begun.past_other {n lines : Nat} (h : Begun s before c cs) (p : Piece) (hform : p.form.kind? = none)
    (hn : (encode p.text).length = n + 1) (hlines : p.text.count '\n' = lines) : s.further n lines = s.past p := by
  unfold further past Piece.newlines
  rw [hn, hlines, h.position, Nat.add_assoc, Nat.add_comm 1, hform, h.pending]

theorem bytewise_not_isQuote : Bytewise (!Piece.isQuote ·) := (bytewise_of_lt (c := '"') (by decide)).not

/-- A string that is closed becomes a token of the text between its quotes. -/
theorem Begun.closed_string {text rest : List Char} (h : Begun s before '"' (text ++ '"' :: rest)) (hq : '"' ∉ text) :
    s.string = some (none, s.past ⟨.token (.string (String.ofList text)), '"' :: text ++ ['"']⟩) := by
  have hrest := h.rest? (by decide)
  have hadvance : s.advanceToQuote = some (s.further (encode text).length (text.count '\n')) := by
    rw [← count_encode (by decide)]
    refine advanceToQuote_eq hrest ?_
    rw [bytewise_not_isQuote.takeWhile, List.takeWhile_append_of_pos (Piece.not_isQuote hq)]
    simp [Piece.isQuote]
  rw [encode_append, encode_cons_of_lt (by decide)] at hrest
  have hclosing := rest?_further hrest (text.count '\n')
  have hslice : Text.slice? s.source (s.start + 1) (s.position + (encode text).length) = some (String.ofList text) := by
    have hbefore : s.start + 1 = (encode (before ++ ['"'])).length := by
      rw [encode_append, List.length_append, h.start, encode_cons_of_lt (by decide)]
      rfl
    rw [h.position, hbefore]
    refine slice?_eq _ text ('"' :: rest) ?_
    rw [h.source]
    simp
  unfold Scanner.string
  rw [hadvance, Option.bind_eq_bind, Option.bind_some, isAtEnd_eq hclosing, advance?_eq hclosing, further_further]
  simp only [List.isEmpty_cons, Bool.false_eq_true, if_false, Option.bind_eq_bind, Option.bind_some]
  change (Text.slice? s.source (s.start + 1) (s.position + (encode text).length)).bind _ = _
  rw [hslice, Option.bind_some, h.past_token]
  · simp [encode_cons, encode_append, encoded_of_lt]
  · simp

/-- A string that is not closed is told on the line where it begins. -/
theorem Begun.open_string (h : Begun s before '"' cs) (hq : '"' ∉ cs) :
    let p : Piece := ⟨.openString, '"' :: cs⟩
    s.string = some (p.error? s.line, s.past p) := by
  have hrest := h.rest? (by decide)
  have hadvance : s.advanceToQuote = some (s.further (encode cs).length (cs.count '\n')) := by
    rw [← count_encode (by decide)]
    refine advanceToQuote_eq hrest ?_
    rw [bytewise_not_isQuote.takeWhile, List.takeWhile_eq_self_iff.2 (Piece.not_isQuote hq)]
  rw [← List.append_nil (encode cs)] at hrest
  unfold Scanner.string
  rw [hadvance, Option.bind_eq_bind, Option.bind_some, isAtEnd_eq (rest?_further hrest _), List.isEmpty_nil, if_pos rfl,
    h.past_other ⟨.openString, '"' :: cs⟩ rfl]
  · rfl
  · simp [encode_cons, encoded_of_lt]
  · simp

/-- With or without its closing quote, the scanner takes the string that `Piece.string` tells. -/
theorem string_eq (h : Begun s before '"' cs) :
    s.string = some ((Piece.string cs).1.error? s.line, s.past (Piece.string cs).1) := by
  unfold Piece.string
  cases hcut : Piece.cutAtQuote? cs with
  | none => exact h.open_string (Piece.cutAtQuote?_none hcut)
  | some cut =>
    obtain ⟨text, rest⟩ := cut
    obtain rfl := Piece.cutAtQuote?_append hcut
    exact h.closed_string (Piece.cutAtQuote?_some hcut)

theorem peek_encode {p : Char → Bool} (hp : Bytewise p) (h0 : p '\x00' = false) (h : s.rest? = some (encode cs)) :
    p s.peek = cs.head?.any p := by
  rw [peek_eq h, ← hp.any_head]
  cases (encode cs).head? with
  | none => exact h0
  | some d => rfl

theorem peekNext_encode {p : Char → Bool} (hp : Bytewise p) (h0 : p '\x00' = false) (hc : c.toNat < 128)
    (h : s.rest? = some (encode (c :: cs))) : p s.peekNext = cs.head?.any p := by
  rw [encode_cons_of_lt hc] at h
  rw [← peek_encode hp h0 (rest?_next h 0)]
  rfl

/-- What `Piece.cutFraction` takes, with its point. -/
def fractionText (cs : List Char) : List Char :=
  if (Piece.cutFraction cs).1.isEmpty then [] else '.' :: (Piece.cutFraction cs).1

/-- The scanner looks two bytes ahead for a fraction, and takes it with all its digits. -/
theorem fraction_eq (h : s.rest? = some (encode cs)) :
    s.fraction = some (s.further (encode (fractionText cs)).length 0) := by
  have hpoint : Bytewise (· == '.') := bytewise_of_lt (by decide)
  have hpeek := peek_encode hpoint (by decide) h
  unfold fraction fractionText
  rw [hpeek]
  rcases cs with _ | ⟨d, ds⟩
  · rfl
  by_cases hd : d = '.'
  · subst hd
    have hnext := peekNext_encode bytewise_isDigit (by decide) (by decide) h
    rw [hnext]
    rcases ds with _ | ⟨e, es⟩
    · rfl
    cases he : e.isDigit with
    | false => simp [Piece.cutFraction, he, further]
    | true =>
      rw [encode_cons_of_lt (by decide)] at h
      have hdigits := advanceWhile_eq (p := Char.isDigit) (by decide) (rest?_next h 0)
      rw [bytewise_isDigit.takeWhile, List.takeWhile_cons_of_pos he, further_further] at hdigits
      rw [advance?_eq h]
      simp [he, Piece.cutFraction, hdigits, encode_cons_of_lt, Nat.add_comm]
  · simp [hd, Piece.cutFraction, further]

theorem not_newline {p : Char → Bool} (hp : p '\n' = false) {text : List Char} (h : ∀ d ∈ text, p d) :
    text.count '\n' = 0 := by
  refine List.count_eq_zero.2 fun hn => ?_
  have := h _ hn
  rw [hp] at this
  cases this

theorem fractionText_digits (cs : List Char) :
    fractionText cs = [] ∧ (Piece.cutFraction cs).1 = [] ∨
      fractionText cs = '.' :: (Piece.cutFraction cs).1 ∧ ∀ d ∈ (Piece.cutFraction cs).1, d.isDigit := by
  have hdigits := Piece.cutFraction_digits cs
  unfold fractionText
  cases hcut : (Piece.cutFraction cs).1 with
  | nil => exact .inl ⟨rfl, rfl⟩
  | cons d ds =>
    rw [hcut] at hdigits
    exact .inr ⟨rfl, hdigits (List.cons_ne_nil _ _)⟩

/-- The text of a number is read with its whole part and its fraction apart. -/
theorem ofText_eq {whole : List Char} (hw : ∀ d ∈ whole, d.isDigit) (cs : List Char) :
    Number.ofText (whole ++ fractionText cs) = Number.read whole (Piece.cutFraction cs).1 := by
  unfold Number.ofText
  rcases fractionText_digits cs with ⟨htext, hcut⟩ | ⟨htext, -⟩
  · rw [htext, hcut, List.append_nil, List.takeWhile_eq_self_iff.2 hw, List.dropWhile_eq_nil_iff.2 hw, List.drop_nil]
  · have hpoint : Char.isDigit '.' = false := by decide
    rw [htext, List.takeWhile_append_of_pos hw, List.dropWhile_append_of_pos hw]
    simp [hpoint]

theorem count_fractionText (cs : List Char) : (fractionText cs).count '\n' = 0 := by
  rcases fractionText_digits cs with ⟨htext, -⟩ | ⟨htext, hdigits⟩
  · rw [htext, List.count_nil]
  · rw [htext, List.count_cons_of_ne (by decide), not_newline (by decide) hdigits]

theorem number_eq (h : Begun s before c cs) (hc : c.isDigit) : s.number = some (s.past (Piece.number c cs).1) := by
  have hlt := lt_of_ascii isDigit_of_le hc
  have hrest := h.rest? hlt
  have hwhole := advanceWhile_eq (p := Char.isDigit) (by decide) hrest
  rw [bytewise_isDigit.takeWhile] at hwhole
  rw [← List.takeWhile_append_dropWhile (p := Char.isDigit) (l := cs), encode_append] at hrest
  have hfraction := fraction_eq (rest?_further hrest 0)
  have hdigits : ∀ d ∈ c :: cs.takeWhile Char.isDigit, d.isDigit := by
    intro d hd
    rcases List.mem_cons.1 hd with rfl | hd
    · exact hc
    · exact List.mem_takeWhile_imp hd
  have hpiece : (Piece.number c cs).1 =
      ⟨.token (.number (Number.ofText (c :: cs.takeWhile Char.isDigit ++ fractionText (cs.dropWhile Char.isDigit)))),
        c :: cs.takeWhile Char.isDigit ++ fractionText (cs.dropWhile Char.isDigit)⟩ := by
    rw [ofText_eq hdigits]
    unfold Piece.number fractionText
    dsimp only
    split <;> simp
  have happend := Piece.number_append c cs
  rw [hpiece] at happend ⊢
  generalize hw : cs.takeWhile Char.isDigit = w at *
  generalize hf : fractionText (cs.dropWhile Char.isDigit) = f at *
  have hlength : (encode (c :: w ++ f)).length = (encode w).length + (encode f).length + 1 := by
    rw [List.cons_append, encode_cons_of_lt hlt, encode_append, List.length_cons, List.length_append]
  have hlines : (c :: w ++ f).count '\n' = 0 + 0 := by
    rw [List.count_append, not_newline (by decide) hdigits, ← hf, count_fractionText]
  unfold Scanner.number
  rw [hwhole, Option.bind_eq_bind, Option.bind_some, hfraction, further_further, Option.bind_eq_bind, Option.bind_some,
    h.lexeme?_further happend.symm hlength, Option.bind_some, String.toList_ofList, h.past_token _ hlength hlines]

theorem word_eq (h : Begun s before c cs) (hc : Piece.isWordStart c) : s.word = some (s.past (Piece.word c cs).1) := by
  have hlt := lt_of_ascii isWordStart_of_le hc
  have hparts := advanceWhile_eq (p := Piece.isWordPart) (by decide) (h.rest? hlt)
  rw [bytewise_isWordPart.takeWhile] at hparts
  have hlength : (encode (c :: cs.takeWhile Piece.isWordPart)).length =
      (encode (cs.takeWhile Piece.isWordPart)).length + 1 := by
    rw [encode_cons_of_lt hlt, List.length_cons]
  have hlines : (c :: cs.takeWhile Piece.isWordPart).count '\n' = 0 := by
    rw [List.count_cons_of_ne (fun hn => absurd hc (by rw [hn]; decide)),
      not_newline (by decide) fun d hd => List.mem_takeWhile_imp hd]
  unfold Scanner.word Piece.word
  rw [hparts, Option.bind_eq_bind, Option.bind_some, h.lexeme?_further (Piece.word_append c cs).symm hlength,
    Option.bind_eq_bind, Option.bind_some, String.toList_ofList, h.past_token _ hlength hlines]
  rfl

theorem findIdx?_eq (p : Char → Bool) (cs : List Char) :
    cs.findIdx? p = if (cs.dropWhile (!p ·)).isEmpty then none else some (cs.takeWhile (!p ·)).length := by
  induction cs with
  | nil => rfl
  | cons c cs ih =>
    rw [List.findIdx?_cons]
    cases hc : p c with
    | true => simp [hc]
    | false =>
      simp [hc, ih]
      split <;> simp

/-- A line comment ends before its newline. -/
theorem lineComment_eq (h : s.rest? = some more) :
    s.lineComment = some (s.further (more.takeWhile (· != '\n')).length 0) := by
  have hsplit := List.takeWhile_append_dropWhile (p := (· != '\n')) (l := more)
  have hfind : more.findIdx? (· == '\n') = if (more.dropWhile (· != '\n')).isEmpty then none
      else some (more.takeWhile (· != '\n')).length := findIdx?_eq (· == '\n') more
  unfold lineComment
  rw [h, Option.map_some, hfind]
  cases hdrop : more.dropWhile (· != '\n') with
  | nil =>
    rw [hdrop, List.append_nil] at hsplit
    rw [List.isEmpty_nil, if_pos rfl, size_eq h, hsplit]
    rfl
  | cons d ds => rfl

theorem accept_encode (hc : c.toNat < 128) (h : s.rest? = some (encode cs)) :
    s.accept c = if cs.head? = some c then (true, s.further 1 0) else (false, s) := by
  rw [accept_eq h]
  simp only [head?_encode hc]

theorem Begun.line_comment {rest : List Char} (h : Begun s before '/' ('/' :: rest)) :
    s.slash = some (none, s.past ⟨.comment, '/' :: '/' :: rest.takeWhile (· != '\n')⟩) := by
  have hnewline : Bytewise (· != '\n') := (bytewise_of_lt (by decide)).not
  have hrest := h.rest? (by decide)
  have haccept := accept_encode (by decide) hrest (c := '/')
  rw [encode_cons_of_lt (by decide)] at hrest
  have hline := lineComment_eq (rest?_next hrest 0)
  rw [hnewline.takeWhile, further_further] at hline
  unfold Scanner.slash
  rw [haccept, List.head?_cons, if_pos rfl]
  change (s.further 1 0).lineComment.map _ = _
  have hcount : (rest.takeWhile (· != '\n')).count '\n' = 0 :=
    not_newline (p := (· != '\n')) (by decide) fun d hd => List.mem_takeWhile_imp (p := (· != '\n')) hd
  rw [hline, Option.map_some, h.past_other ⟨.comment, '/' :: '/' :: rest.takeWhile (· != '\n')⟩ rfl]
  · simp [encode_cons_of_lt, Nat.add_comm]
  · rw [List.count_cons_of_ne (by decide), List.count_cons_of_ne (by decide), hcount]

theorem Begun.slash_of_star {rest : List Char} (h : Begun s before '/' ('*' :: rest)) :
    s.slash = (s.further 1 0).blockComment ∧ (s.further 1 0).rest? = some (encode rest) := by
  have hrest := h.rest? (by decide)
  have hslash := accept_encode (by decide) hrest (c := '/')
  have hstar := accept_encode (by decide) hrest (c := '*')
  rw [List.head?_cons, if_neg (by decide)] at hslash
  rw [List.head?_cons, if_pos rfl] at hstar
  rw [encode_cons_of_lt (by decide)] at hrest
  refine ⟨?_, rest?_next hrest 0⟩
  unfold Scanner.slash
  rw [hslash]
  dsimp only
  rw [hstar]

/-- A block comment is taken with its end, and its lines are counted. -/
theorem Begun.closed_comment {body rest cs : List Char} (h : Begun s before '/' ('*' :: cs))
    (hcut : Piece.cutAtClose? cs = some (body, rest)) :
    s.slash = some (none, s.past ⟨.comment, '/' :: '*' :: body ++ ['*', '/']⟩) := by
  obtain ⟨hslash, hrest⟩ := h.slash_of_star
  have htake : (encode cs).take (encode body).length = encode body := by
    rw [← Piece.cutAtClose?_append hcut, encode_append, List.take_left]
  rw [hslash]
  unfold blockComment
  rw [hrest, Option.map_some, find?_close_encode, hcut, Option.map_some]
  dsimp only
  rw [htake, count_encode (by decide)]
  change some (none, (s.further 1 0).further ((encode body).length + 2) (body.count '\n')) = _
  rw [further_further, h.past_other ⟨.comment, '/' :: '*' :: body ++ ['*', '/']⟩ rfl]
  · simp [encode_cons_of_lt, encode_append, Nat.add_comm 1]
  · simp

theorem Begun.open_comment {cs : List Char} (h : Begun s before '/' ('*' :: cs)) (hcut : Piece.cutAtClose? cs = none) :
    let p : Piece := ⟨.openComment, '/' :: '*' :: cs⟩
    s.slash = some (p.error? s.line, s.past p) := by
  obtain ⟨hslash, hrest⟩ := h.slash_of_star
  have hpast : (s.further 1 0).further (encode cs).length (cs.count '\n') =
      s.past ⟨.openComment, '/' :: '*' :: cs⟩ := by
    rw [further_further, h.past_other ⟨.openComment, '/' :: '*' :: cs⟩ rfl]
    · simp [encode_cons_of_lt, Nat.add_comm 1]
    · simp
  rw [hslash]
  unfold blockComment
  rw [hrest, Option.map_some, find?_close_encode, hcut, Option.map_none, size_eq hrest, count_encode (by decide)]
  change some (some (LexicalError.mk _ ((s.further 1 0).further (encode cs).length (cs.count '\n')).line),
    (s.further 1 0).further (encode cs).length (cs.count '\n')) = _
  rw [hpast]
  rfl

theorem Begun.only_slash (h : Begun s before '/' cs) (hslash : cs.head? ≠ some '/') (hstar : cs.head? ≠ some '*') :
    s.slash = some (none, s.past ⟨.token (.mark .slash), ['/']⟩) := by
  have hrest := h.rest? (by decide)
  have hpast : (s.further 0 0).found (.mark .slash) = s.past ⟨.token (.mark .slash), ['/']⟩ :=
    h.past_token (.mark .slash) rfl rfl
  unfold Scanner.slash
  rw [accept_encode (by decide) hrest, if_neg hslash]
  dsimp only
  rw [accept_encode (by decide) hrest, if_neg hstar]
  dsimp only
  rw [← hpast]
  rfl

theorem slash_eq (h : Begun s before '/' cs) :
    s.slash = some ((Piece.slash cs).1.error? s.line, s.past (Piece.slash cs).1) := by
  unfold Piece.slash
  split
  · exact h.line_comment
  · next rest =>
    cases hcut : Piece.cutAtClose? rest with
    | none => exact h.open_comment hcut
    | some cut => exact h.closed_comment hcut
  · next hslash hstar =>
    refine h.only_slash (fun hhead => ?_) fun hhead => ?_
    · obtain ⟨rest, rfl⟩ := List.head?_eq_some_iff.1 hhead
      exact hslash rest rfl
    · obtain ⟨rest, rfl⟩ := List.head?_eq_some_iff.1 hhead
      exact hstar rest rfl

/-- A mark goes together with an equals sign if both are one mark. -/
theorem mark_eq {m : Mark} (h : Begun s before c cs) (hm : Mark.ofChar? c = some m) :
    s.mark m = s.past (Piece.mark m c cs).1 := by
  have hlt : c.toNat < 128 := by
    refine Nat.lt_of_not_le fun hge => ?_
    rw [ofChar?_of_le c hge] at hm
    cases hm
  have hnewline : c ≠ '\n' := by
    rintro rfl
    cases hm
  have hequal := accept_encode (by decide) (h.rest? hlt) (c := '=')
  have hone : s.found (.mark m) = s.past ⟨.token (.mark m), [c]⟩ := by
    have h' : (s.further 0 0).found (.mark m) = s.past ⟨.token (.mark m), [c]⟩ :=
      h.past_token (.mark m) (by rw [encode_cons_of_lt hlt]; rfl) (by simp [hnewline])
    exact h'
  unfold Scanner.mark Piece.mark
  rw [hequal]
  cases hlonger : m.withEqual? with
  | none => exact hone
  | some longer =>
    have htwo : (s.further 1 0).found (.mark longer) = s.past ⟨.token (.mark longer), [c, '=']⟩ :=
      h.past_token (.mark longer) (by rw [encode_cons_of_lt hlt]; rfl) (by simp [hnewline])
    rcases cs with _ | ⟨d, ds⟩
    · exact hone
    · by_cases hd : d = '='
      · subst hd
        simpa using htwo
      · simpa [hd] using hone

/-- A character that begins nothing is taken with all its bytes. -/
theorem stray_eq (h : Begun s before c cs) (hc : c ≠ '\n') :
    s.stray = some (some ⟨.unexpectedCharacter, s.line⟩, s.past ⟨.stray, [c]⟩) := by
  have hsize : s.size = s.start + (encode (c :: cs)).length := by
    rw [size, ← length_bytes, bytes_eq, h.source, encode_append, List.length_append, h.start]
  have hrest := h.lexeme_eq (List.append_nil (c :: cs)).symm
  have hnewlines : [c].count '\n' = 0 := by simp [hc]
  unfold stray
  rw [hsize, hrest, Option.bind_eq_bind, Option.bind_some, String.toList_ofList]
  unfold past Piece.newlines
  dsimp only
  rw [hnewlines, encode_cons, encode_nil, List.append_nil, length_encoded]
  simp [h.pending, Piece.Form.kind?]

/-- Beyond ASCII no character begins anything. -/
theorem first_of_le (h : 128 ≤ c.toNat) (cs : List Char) : Piece.first c cs = (⟨.stray, [c]⟩, cs) := by
  have hne : ∀ d : Char, d.toNat < 128 → c ≠ d := fun d hd => ne_of_le h hd
  unfold Piece.first
  rw [if_neg (hne _ (by decide)), if_neg (hne _ (by decide)), if_neg (by simp [isDigit_of_le c h]),
    if_neg (by simp [isWordStart_of_le c h]), if_neg (by simp [isBlank_of_le c h]), ofChar?_of_le c h]

/-- Where a piece begins the scanner takes that piece. -/
theorem scanToken_eq (h : At s before (c :: cs)) (hstart : s.start = s.position) (hpending : s.pending = none) :
    s.scanToken = some ((Piece.first c cs).1.error? s.line, s.past (Piece.first c cs).1) := by
  have hbegun : Begun (s.further 1 0) before c cs :=
    ⟨h.source, hstart.trans h.position, congrArg (· + 1) hstart.symm, hpending⟩
  obtain ⟨d, ds, hd⟩ := List.exists_cons_of_ne_nil (encoded_ne_nil c)
  have hrest := h.rest?
  rw [encode_cons, hd, List.cons_append] at hrest
  unfold scanToken
  rw [advance?_eq hrest, Option.bind_eq_bind, Option.bind_some]
  dsimp only
  rcases Nat.lt_or_ge c.toNat 128 with hlt | hge
  · obtain rfl : d = c := by
      rw [encoded_of_lt hlt] at hd
      exact (List.cons.inj hd).1.symm
    unfold Piece.first
    split
    · next hc =>
      subst hc
      exact string_eq hbegun
    split
    · next hc =>
      subst hc
      exact slash_eq hbegun
    split
    · next hc =>
      rw [number_eq hbegun hc]
      rfl
    split
    · next hc =>
      rw [word_eq hbegun hc]
      rfl
    split
    · rw [countLine_eq, hbegun.past_other ⟨.blank, [d]⟩ rfl (by rw [encode_cons_of_lt hlt]; rfl) rfl]
      rfl
    next hblank =>
    cases hm : Mark.ofChar? d with
    | some m =>
      have hmark : (Piece.mark m d cs).1.error? s.line = none := by
        unfold Piece.mark
        split <;> rfl
      dsimp only
      rw [mark_eq hbegun hm, hmark]
      rfl
    | none =>
      refine stray_eq hbegun fun hn => hblank ?_
      rw [hn]
      rfl
  · have hd' : 128 ≤ d.toNat := le_of_mem_encoded hge (by rw [hd]; exact List.mem_cons_self)
    have hne : ∀ e : Char, e.toNat < 128 → d ≠ e := fun e he => ne_of_le hd' he
    rw [if_neg (hne _ (by decide)), if_neg (hne _ (by decide)), if_neg (by simp [isDigit_of_le d hd']),
      if_neg (by simp [isWordStart_of_le d hd']), if_neg (by simp [isBlank_of_le d hd']), ofChar?_of_le d hd',
      first_of_le hge]
    exact stray_eq hbegun (ne_of_le hge (by decide))

end Scanner

end LoxLang
