import LoxLang.Token.Lexer

namespace LoxLang

namespace Text

/-- The bytes of a text, each read as the character of its number. -/
def bytes (text : String) : List Char := text.toByteArray.data.toList.map Char.ofUInt8

/-- The part of a text between two of its bytes. -/
def slice? (text : String) (first last : Nat) : Option String :=
  if h : first ≤ last ∧ String.Pos.Raw.IsValid text ⟨first⟩ ∧ String.Pos.Raw.IsValid text ⟨last⟩ then
    some (text.extract ⟨⟨first⟩, h.2.1⟩ ⟨⟨last⟩, h.2.2⟩)
  else none

/-- Where one text begins in another for the first time. -/
def find? (sought : List Char) : List Char → Option Nat
  | [] => if sought.isEmpty then some 0 else none
  | c :: cs => if sought.isPrefixOf (c :: cs) then some 0 else (find? sought cs).map (· + 1)

end Text

namespace Number

/-- The number that digits with at most one point among them stand for. -/
def ofText (text : List Char) : Number :=
  read (text.takeWhile Char.isDigit) ((text.dropWhile Char.isDigit).drop 1)

end Number

/-- A source on its way to items. The scanner goes through its bytes, from item to item, and remembers where the piece
at hand begins and how many lines there were. An access beyond the source, or to a part of it that divides a character,
has no result. -/
structure Scanner where
  source : String
  /-- The first byte of the piece at hand. -/
  start : Nat
  /-- The next byte; beyond the source once its end has been told. -/
  position : Nat
  line : Nat
  /-- The line on which the piece at hand begins. -/
  startLine : Nat
  /-- The kind of the token that is at hand. -/
  pending : Option Token.Kind
deriving DecidableEq, Repr

namespace Scanner

def ofSource (source : String) : Scanner := ⟨source, 0, 0, 1, 1, none⟩

def size (s : Scanner) : Nat := s.source.utf8ByteSize

def isAtEnd (s : Scanner) : Bool := decide (s.size ≤ s.position)

def byte? (s : Scanner) (i : Nat) : Option Char := (Text.bytes s.source)[i]?

/-- The next byte, zero at the end. -/
def peek (s : Scanner) : Char := (s.byte? s.position).getD '\x00'

/-- The byte after the next, zero at the end. -/
def peekNext (s : Scanner) : Char := (s.byte? (s.position + 1)).getD '\x00'

/-- The bytes from the next on. -/
def rest? (s : Scanner) : Option (List Char) :=
  if s.position ≤ s.size then some ((Text.bytes s.source).drop s.position) else none

/-- The text of the piece at hand as far as it has been read. -/
def lexeme? (s : Scanner) : Option String := Text.slice? s.source s.start s.position

def advance? (s : Scanner) : Option (Char × Scanner) :=
  (s.byte? s.position).map fun c => (c, { s with position := s.position + 1 })

/-- Advance if this is the next byte. -/
def accept (c : Char) (s : Scanner) : Bool × Scanner :=
  if s.byte? s.position = some c then (true, { s with position := s.position + 1 }) else (false, s)

def found (kind : Token.Kind) (s : Scanner) : Scanner := { s with pending := some kind }

def countLine (c : Char) (s : Scanner) : Scanner := if c = '\n' then { s with line := s.line + 1 } else s

/-- The second scanner has come from the first within one piece. -/
structure Onward (s s' : Scanner) : Prop where
  source : s'.source = s.source
  start : s'.start = s.start
  position : s.position ≤ s'.position

theorem Onward.refl (s : Scanner) : Onward s s := ⟨rfl, rfl, Nat.le_refl _⟩

theorem Onward.trans {s s' s'' : Scanner} (h : Onward s s') (h' : Onward s' s'') : Onward s s'' :=
  ⟨h'.source.trans h.source, h'.start.trans h.start, Nat.le_trans h.position h'.position⟩

theorem Onward.size {s s' : Scanner} (h : Onward s s') : s'.size = s.size := congrArg String.utf8ByteSize h.source

theorem Onward.found {s s' : Scanner} (h : Onward s s') (kind : Token.Kind) : Onward s (s'.found kind) :=
  ⟨h.source, h.start, h.position⟩

theorem onward_countLine (c : Char) (s : Scanner) : Onward s (s.countLine c) := by
  unfold countLine
  split <;> exact ⟨rfl, rfl, Nat.le_refl _⟩

theorem onward_accept (c : Char) (s : Scanner) : Onward s (s.accept c).2 := by
  unfold accept
  split
  · exact ⟨rfl, rfl, Nat.le_succ _⟩
  · exact .refl _

/-- There is a byte to be taken, or the scanner does not go on. -/
theorem lt_of_advance? {s s' : Scanner} {c : Char} (h : s.advance? = some (c, s')) :
    Onward s s' ∧ s.position < s'.position ∧ s.position < s.size := by
  obtain ⟨d, hd, heq⟩ := Option.map_eq_some_iff.1 h
  cases heq
  refine ⟨⟨rfl, rfl, Nat.le_succ _⟩, Nat.lt_succ_self _, ?_⟩
  have := (List.getElem?_eq_some_iff.1 hd).1
  simpa [Text.bytes, size] using this

/-- Advance over bytes of a kind. -/
def advanceWhile (p : Char → Bool) (s : Scanner) : Option Scanner :=
  if p s.peek then
    match _h : s.advance? with
    | some (_, s') => advanceWhile p s'
    | none => none
  else some s
termination_by s.size - s.position
decreasing_by
  obtain ⟨hs, hlt, hsize⟩ := lt_of_advance? _h
  rw [hs.size]
  omega

theorem onward_advanceWhile {p : Char → Bool} {s s' : Scanner} (h : s.advanceWhile p = some s') : Onward s s' := by
  fun_induction advanceWhile p s with
  | case1 s hp c t hadvance ih => exact (lt_of_advance? hadvance).1.trans (ih h)
  | case2 s hp hnone => cases h
  | case3 s hp =>
    cases h
    exact .refl _

/-- Advance to the next quote, or to the end of the source. -/
def advanceToQuote (s : Scanner) : Option Scanner :=
  if s.isAtEnd || s.peek == '"' then some s
  else
    match _h : s.advance? with
    | some (c, s') => advanceToQuote (s'.countLine c)
    | none => none
termination_by s.size - s.position
decreasing_by
  obtain ⟨hs, hlt, hsize⟩ := lt_of_advance? _h
  have hle := (onward_countLine c s').position
  rw [(hs.trans (onward_countLine c s')).size]
  omega

theorem onward_advanceToQuote {s s' : Scanner} (h : s.advanceToQuote = some s') : Onward s s' := by
  fun_induction advanceToQuote s with
  | case1 s hend =>
    cases h
    exact .refl _
  | case2 s hend c t hadvance ih =>
    exact ((lt_of_advance? hadvance).1.trans (onward_countLine c t)).trans (ih h)
  | case3 s hend hnone => cases h

/-- The piece that a quote begins. Each piece comes with an error if it is one, and leaves a token pending if it is
one. -/
def string (s : Scanner) : Option (Option LexicalError × Scanner) := do
  let s ← s.advanceToQuote
  if s.isAtEnd then some (some ⟨.unterminatedString, s.line⟩, s)
  else
    let (_, s) ← s.advance?
    let text ← Text.slice? s.source (s.start + 1) (s.position - 1)
    some (none, s.found (.string text))

/-- Advance over a point that has a digit behind it, and over all digits there. -/
def fraction (s : Scanner) : Option Scanner :=
  if s.peek == '.' && s.peekNext.isDigit then do
    let (_, s) ← s.advance?
    s.advanceWhile Char.isDigit
  else some s

/-- The piece that a digit begins. -/
def number (s : Scanner) : Option Scanner := do
  let s ← s.advanceWhile Char.isDigit
  let s ← s.fraction
  let text ← s.lexeme?
  some (s.found (.number (Number.ofText text.toList)))

/-- The piece that a letter begins. -/
def word (s : Scanner) : Option Scanner := do
  let s ← s.advanceWhile Piece.isWordPart
  let text ← s.lexeme?
  some (s.found (Piece.wordKind text.toList))

def lineComment (s : Scanner) : Option Scanner :=
  s.rest?.map fun rest =>
    match rest.findIdx? (· == '\n') with
    | some n => { s with position := s.position + n }
    | none => { s with position := s.size }

def blockComment (s : Scanner) : Option (Option LexicalError × Scanner) :=
  s.rest?.map fun rest =>
    match Text.find? ['*', '/'] rest with
    | some n => (none, { s with line := s.line + (rest.take n).count '\n', position := s.position + (n + 2) })
    | none =>
      let s := { s with line := s.line + rest.count '\n', position := s.size }
      (some ⟨.unterminatedComment, s.line⟩, s)

/-- The piece that a slash begins. -/
def slash (s : Scanner) : Option (Option LexicalError × Scanner) :=
  match s.accept '/' with
  | (true, s) => s.lineComment.map (none, ·)
  | (false, s) =>
    match s.accept '*' with
    | (true, s) => s.blockComment
    | (false, s) => some (none, s.found (.mark .slash))

/-- The piece that a mark begins. -/
def mark (m : Mark) (s : Scanner) : Scanner :=
  match m.withEqual? with
  | some longer =>
    match s.accept '=' with
    | (true, s) => s.found (.mark longer)
    | (false, s) => s.found (.mark m)
  | none => s.found (.mark m)

/-- A character that begins nothing, of which one byte has been read. -/
def stray (s : Scanner) : Option (Option LexicalError × Scanner) := do
  let rest ← Text.slice? s.source s.start s.size
  let c := rest.toList.head?.getD '\ufffd'
  some (some ⟨.unexpectedCharacter, s.line⟩, { s with position := s.start + c.utf8Size })

/-- The piece that begins with the next byte. -/
def scanToken (s : Scanner) : Option (Option LexicalError × Scanner) := do
  let (c, s) ← s.advance?
  if c = '"' then s.string
  else if c = '/' then s.slash
  else if c.isDigit then s.number.map (none, ·)
  else if Piece.isWordStart c then s.word.map (none, ·)
  else if Piece.isBlank c then some (none, s.countLine c)
  else
    match Mark.ofChar? c with
    | some m => some (none, s.mark m)
    | none => s.stray

variable {s s' : Scanner} {e : Option LexicalError}

theorem onward_string (h : s.string = some (e, s')) : Onward s s' := by
  obtain ⟨t, ht, h⟩ := Option.bind_eq_some_iff.1 h
  have ht := onward_advanceToQuote ht
  split at h
  · cases h
    exact ht
  · obtain ⟨⟨c, u⟩, hu, h⟩ := Option.bind_eq_some_iff.1 h
    obtain ⟨text, -, h⟩ := Option.bind_eq_some_iff.1 h
    cases h
    exact (ht.trans (lt_of_advance? hu).1).found _

/-- The digits behind a point belong to the number before it. -/
theorem onward_fraction (h : s.fraction = some s') : Onward s s' := by
  unfold fraction at h
  split at h
  · obtain ⟨⟨c, t⟩, ht, h⟩ := Option.bind_eq_some_iff.1 h
    exact (lt_of_advance? ht).1.trans (onward_advanceWhile h)
  · cases h
    exact .refl _

theorem onward_number (h : s.number = some s') : Onward s s' := by
  obtain ⟨t, ht, h⟩ := Option.bind_eq_some_iff.1 h
  obtain ⟨u, hu, h⟩ := Option.bind_eq_some_iff.1 h
  obtain ⟨text, -, h⟩ := Option.bind_eq_some_iff.1 h
  cases h
  exact ((onward_advanceWhile ht).trans (onward_fraction hu)).found _

theorem onward_word (h : s.word = some s') : Onward s s' := by
  obtain ⟨t, ht, h⟩ := Option.bind_eq_some_iff.1 h
  obtain ⟨text, -, h⟩ := Option.bind_eq_some_iff.1 h
  cases h
  exact (onward_advanceWhile ht).found _

theorem le_of_rest? {rest : List Char} (h : s.rest? = some rest) : s.position ≤ s.size := by
  unfold rest? at h
  split at h
  · assumption
  · cases h

theorem onward_lineComment (h : s.lineComment = some s') : Onward s s' := by
  obtain ⟨rest, hrest, heq⟩ := Option.map_eq_some_iff.1 h
  split at heq <;> cases heq
  · exact ⟨rfl, rfl, Nat.le_add_right _ _⟩
  · exact ⟨rfl, rfl, le_of_rest? hrest⟩

theorem onward_blockComment (h : s.blockComment = some (e, s')) : Onward s s' := by
  obtain ⟨rest, hrest, heq⟩ := Option.map_eq_some_iff.1 h
  split at heq <;> cases heq
  · exact ⟨rfl, rfl, Nat.le_add_right _ _⟩
  · exact ⟨rfl, rfl, le_of_rest? hrest⟩

theorem onward_slash (h : s.slash = some (e, s')) : Onward s s' := by
  unfold slash at h
  have hline := onward_accept '/' s
  split at h
  · next t ht =>
    rw [ht] at hline
    obtain ⟨u, hu, heq⟩ := Option.map_eq_some_iff.1 h
    cases heq
    exact hline.trans (onward_lineComment hu)
  · next t ht =>
    rw [ht] at hline
    have hblock := onward_accept '*' t
    split at h
    · next u hu =>
      rw [hu] at hblock
      exact hline.trans (hblock.trans (onward_blockComment h))
    · next u hu =>
      rw [hu] at hblock
      cases h
      exact (hline.trans hblock).found _

theorem onward_mark (m : Mark) (s : Scanner) : Onward s (s.mark m) := by
  unfold mark
  have hequal := onward_accept '=' s
  split
  · split
    all_goals
      next ht =>
      rw [ht] at hequal
      exact hequal.found _
  · exact (Onward.refl s).found _

theorem onward_stray (hs : s.position = s.start + 1) (h : s.stray = some (e, s')) : Onward s s' := by
  obtain ⟨rest, -, h⟩ := Option.bind_eq_some_iff.1 h
  cases h
  refine ⟨rfl, rfl, ?_⟩
  rw [hs]
  exact Nat.add_le_add_left (Char.utf8Size_pos _) _

/-- A piece is not empty. -/
theorem lt_of_scanToken (hs : s.position = s.start) (h : s.scanToken = some (e, s')) :
    Onward s s' ∧ s.position < s'.position := by
  obtain ⟨⟨c, t⟩, ht, h⟩ := Option.bind_eq_some_iff.1 h
  obtain ⟨hst, hlt, -⟩ := lt_of_advance? ht
  have honward : Onward t s' := by
    dsimp only at h
    split at h
    · exact onward_string h
    split at h
    · exact onward_slash h
    split at h
    · obtain ⟨u, hu, heq⟩ := Option.map_eq_some_iff.1 h
      cases heq
      exact onward_number hu
    split at h
    · obtain ⟨u, hu, heq⟩ := Option.map_eq_some_iff.1 h
      cases heq
      exact onward_word hu
    split at h
    · cases h
      exact onward_countLine c t
    split at h
    · cases h
      exact onward_mark _ t
    · refine onward_stray ?_ h
      obtain ⟨d, -, heq⟩ := Option.map_eq_some_iff.1 ht
      cases heq
      exact congrArg (· + 1) hs
  exact ⟨hst.trans honward, Nat.lt_of_lt_of_le hlt honward.position⟩

/-- The scanner where a piece begins. -/
def begun (s : Scanner) : Scanner := { s with start := s.position, startLine := s.line, pending := none }

/-- The next item, if there is one more. -/
def next (s : Scanner) : Option (Option Item × Scanner) :=
  if s.position ≤ s.size then
    if s.position = s.size then
      some (some (.token ⟨.finish, "", s.line⟩), { s with position := s.position + 1 })
    else
      match _h : s.begun.scanToken with
      | some (some e, s') => some (some (.error e), s')
      | some (none, s') =>
        match s'.pending with
        | some kind => do
          let text ← s'.lexeme?
          some (some (.token ⟨kind, text, s'.startLine⟩), { s' with pending := none })
        | none => next s'
      | none => none
  else some (none, s)
termination_by s.size - s.position
decreasing_by
  obtain ⟨hs, hlt⟩ := lt_of_scanToken rfl _h
  rw [hs.size]
  change s.size - s'.position < s.size - s.position
  have : s.position < s'.position := hlt
  omega

/-- The scanner when it has been asked for so many items. -/
def after : Nat → Scanner → Option Scanner
  | 0, s => some s
  | n + 1, s => s.next.bind fun (_, s') => after n s'

/-- The next item when the scanner has been asked for so many. -/
def answer? (n : Nat) (s : Scanner) : Option (Option Item) := (after n s).bind fun s' => s'.next.map Prod.fst

end Scanner

end LoxLang
