import LoxLang.Token.Basic

namespace LoxLang

namespace Piece

/-- What a stretch of source text is. -/
inductive Form where
  | token (kind : Token.Kind)
  /-- One whitespace character. -/
  | blank
  | comment
  /-- A character that begins nothing. -/
  | stray
  /-- A quote that is never closed, with all that follows it. -/
  | openString
  /-- A block comment that is never closed, with all that follows its start. -/
  | openComment
deriving DecidableEq, Repr

end Piece

/-- A stretch of source text and what it is. -/
structure Piece where
  form : Piece.Form
  text : List Char
deriving DecidableEq, Repr

namespace Piece

def isBlank (c : Char) : Bool := c == ' ' || c == '\n' || c == '\r' || c == '\t'

/-- Letters of words are ASCII letters and the underscore. -/
def isWordStart (c : Char) : Bool := c.isAlpha || c == '_'

def isWordPart (c : Char) : Bool := c.isAlphanum || c == '_'

def isQuote (c : Char) : Bool := c == '"'

/-- The text before the first quote and the text after it. -/
def cutAtQuote? (cs : List Char) : Option (List Char × List Char) :=
  match cs.dropWhile (!isQuote ·) with
  | [] => none
  | _ :: rest => some (cs.takeWhile (!isQuote ·), rest)

/-- The text before the first end of a block comment and the text after that end. -/
def cutAtClose? : List Char → Option (List Char × List Char)
  | [] => none
  | c :: cs =>
    match c, cs with
    | '*', '/' :: rest => some ([], rest)
    | c, cs => (cutAtClose? cs).map fun (before, rest) => (c :: before, rest)

/-- A point with a digit after it, and all digits from there on; otherwise nothing. -/
def cutFraction (cs : List Char) : List Char × List Char :=
  match cs with
  | '.' :: d :: rest =>
    if d.isDigit then (d :: rest.takeWhile Char.isDigit, rest.dropWhile Char.isDigit) else ([], cs)
  | _ => ([], cs)

/-- The piece that a quote begins, and what follows it. -/
def string (cs : List Char) : Piece × List Char :=
  match cutAtQuote? cs with
  | some (text, rest) => (⟨.token (.string (String.ofList text)), '"' :: text ++ ['"']⟩, rest)
  | none => (⟨.openString, '"' :: cs⟩, [])

/-- The piece that a digit begins, and what follows it. -/
def number (c : Char) (cs : List Char) : Piece × List Char :=
  let whole := c :: cs.takeWhile Char.isDigit
  let (fraction, rest) := cutFraction (cs.dropWhile Char.isDigit)
  let text := if fraction.isEmpty then whole else whole ++ '.' :: fraction
  (⟨.token (.number (Number.read whole fraction)), text⟩, rest)

/-- Reserved words are keywords, all others identifiers. -/
def wordKind (word : List Char) : Token.Kind :=
  match Keyword.ofWord? (String.ofList word) with
  | some k => .keyword k
  | none => .identifier

/-- The piece that a letter begins, and what follows it. -/
def word (c : Char) (cs : List Char) : Piece × List Char :=
  let text := c :: cs.takeWhile isWordPart
  (⟨.token (wordKind text), text⟩, cs.dropWhile isWordPart)

/-- The piece that a slash begins, and what follows it. A line comment ends before its newline. -/
def slash (cs : List Char) : Piece × List Char :=
  match cs with
  | '/' :: rest => (⟨.comment, '/' :: '/' :: rest.takeWhile (· != '\n')⟩, rest.dropWhile (· != '\n'))
  | '*' :: rest =>
    match cutAtClose? rest with
    | some (before, rest) => (⟨.comment, '/' :: '*' :: before ++ ['*', '/']⟩, rest)
    | none => (⟨.openComment, '/' :: '*' :: rest⟩, [])
  | _ => (⟨.token (.mark .slash), ['/']⟩, cs)

/-- The piece that a mark begins, and what follows it. -/
def mark (m : Mark) (c : Char) (cs : List Char) : Piece × List Char :=
  match m.withEqual?, cs with
  | some longer, '=' :: rest => (⟨.token (.mark longer), [c, '=']⟩, rest)
  | _, _ => (⟨.token (.mark m), [c]⟩, cs)

/-- The first piece of a text, and what follows it. -/
def first (c : Char) (cs : List Char) : Piece × List Char :=
  if c = '"' then string cs
  else if c = '/' then slash cs
  else if c.isDigit then number c cs
  else if isWordStart c then word c cs
  else if isBlank c then (⟨.blank, [c]⟩, cs)
  else
    match Mark.ofChar? c with
    | some m => mark m c cs
    | none => (⟨.stray, [c]⟩, cs)

/-- What is cut at a quote goes together with it to what was there. -/
theorem cutAtQuote?_append {cs text rest : List Char} (h : cutAtQuote? cs = some (text, rest)) :
    text ++ '"' :: rest = cs := by
  unfold cutAtQuote? at h
  split at h
  · cases h
  · next q tail hdrop =>
    obtain ⟨rfl, rfl⟩ := Prod.mk.inj (Option.some.inj h)
    have hq : isQuote q = true := by
      simpa [hdrop] using List.head_dropWhile_not (!isQuote ·) (l := cs) (by simp [hdrop])
    have : q = '"' := by simpa [isQuote] using hq
    rw [← this, ← hdrop, List.takeWhile_append_dropWhile]

theorem cutAtClose?_append {cs before rest : List Char} (h : cutAtClose? cs = some (before, rest)) :
    before ++ '*' :: '/' :: rest = cs := by
  fun_induction cutAtClose? cs generalizing before rest with
  | case1 => cases h
  | case2 tail => cases h; rfl
  | case3 c cs _ ih =>
    obtain ⟨⟨b, r⟩, hcut, heq⟩ := Option.map_eq_some_iff.1 h
    cases heq
    simp [ih hcut]

/-- A point without digits after it is left where it is. -/
theorem cutFraction_append (cs : List Char) :
    (if (cutFraction cs).1.isEmpty then [] else '.' :: (cutFraction cs).1) ++ (cutFraction cs).2 = cs := by
  unfold cutFraction
  split
  · split <;> simp
  · rfl

/-- A string and what follows it are the text that its quote begins. -/
theorem string_append (cs : List Char) : (string cs).1.text ++ (string cs).2 = '"' :: cs := by
  unfold string
  split
  · next h => simpa using cutAtQuote?_append h
  · simp

theorem number_append (c : Char) (cs : List Char) :
    (number c cs).1.text ++ (number c cs).2 = c :: cs := by
  have h := cutFraction_append (cs.dropWhile Char.isDigit)
  have hcs : cs.takeWhile Char.isDigit ++ cs.dropWhile Char.isDigit = cs :=
    List.takeWhile_append_dropWhile
  unfold number
  dsimp only
  split
  · next he => rw [if_pos he] at h; rw [List.nil_append] at h; simp [h, hcs]
  · next he => rw [if_neg he] at h; simp only [List.cons_append, List.append_assoc] at h ⊢; rw [h, hcs]

theorem word_append (c : Char) (cs : List Char) : (word c cs).1.text ++ (word c cs).2 = c :: cs := by
  simp [word]

/-- So are a comment and what follows it, with the newline that ends a line comment. -/
theorem slash_append (cs : List Char) : (slash cs).1.text ++ (slash cs).2 = '/' :: cs := by
  unfold slash
  split
  · simp
  · split
    · next h => simpa using cutAtClose?_append h
    · simp
  · rfl

theorem mark_append (m : Mark) (c : Char) (cs : List Char) :
    (mark m c cs).1.text ++ (mark m c cs).2 = c :: cs := by
  unfold mark
  split <;> rfl

theorem first_append (c : Char) (cs : List Char) : (first c cs).1.text ++ (first c cs).2 = c :: cs := by
  unfold first
  split
  · next h => rw [h]; exact string_append cs
  split
  · next h => rw [h]; exact slash_append cs
  split
  · exact number_append c cs
  split
  · exact word_append c cs
  split
  · rfl
  split
  · exact mark_append _ c cs
  · rfl

/-- A piece takes at least one character, so cutting comes to an end. -/
theorem first_text_ne_nil (c : Char) (cs : List Char) : (first c cs).1.text ≠ [] := by
  unfold first string slash number word mark
  repeat' split
  all_goals simp

theorem first_rest_lt (c : Char) (cs : List Char) : (first c cs).2.length < (c :: cs).length := by
  have h := congrArg List.length (first_append c cs)
  have := List.length_pos_iff.2 (first_text_ne_nil c cs)
  simp only [List.length_append] at h
  omega

/-- A source is cut into pieces, front to back: tokens, blanks, comments, and texts that are in error. -/
def ofSource : List Char → List Piece
  | [] => []
  | c :: cs => (first c cs).1 :: ofSource (first c cs).2
termination_by source => source.length
decreasing_by exact first_rest_lt c cs

/-- The pieces concatenate to the source. -/
theorem flatten_ofSource (source : List Char) : (ofSource source).flatMap text = source := by
  fun_induction ofSource source with
  | case1 => rfl
  | case2 c cs ih => rw [List.flatMap_cons, ih, first_append]

end Piece

end LoxLang
