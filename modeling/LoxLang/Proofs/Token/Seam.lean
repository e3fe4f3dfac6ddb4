import Mathlib.Algebra.GroupWithZero.Nat
import LoxLang.Token.Lexer
import LoxLang.Proofs.Tree.Relabel

namespace LoxLang

namespace Piece

/-- The piece has an end of its own, wherever the text goes on. -/
def Form.isClosed : Form → Bool
  | .openString => false
  | .openComment => false
  | _ => true

/-- What goes on while a property holds does not look beyond a blank that ends it. -/
theorem takeWhile_append_cons {p : Char → Bool} {w : Char} (hp : p w = false) (cs more : List Char) :
    (cs ++ w :: more).takeWhile p = cs.takeWhile p := by
  induction cs with
  | nil => simp [hp]
  | cons c cs ih =>
    rw [List.cons_append, List.takeWhile_cons, List.takeWhile_cons, ih]

theorem dropWhile_append_cons {p : Char → Bool} {w : Char} (hp : p w = false) (cs more : List Char) :
    (cs ++ w :: more).dropWhile p = cs.dropWhile p ++ w :: more := by
  induction cs with
  | nil => simp [hp]
  | cons c cs ih =>
    rw [List.cons_append, List.dropWhile_cons, List.dropWhile_cons, ih]
    split <;> simp

/-- A blank is no part of what may go on. -/
theorem isBlank_ends {w : Char} (h : isBlank w) :
    w.isDigit = false ∧ isWordPart w = false ∧ w ≠ '.' ∧ w ≠ '=' ∧ w ≠ '/' ∧ w ≠ '*' := by
  simp only [isBlank, Bool.or_eq_true, beq_iff_eq] at h
  rcases h with ((rfl | rfl) | rfl) | rfl <;> decide

variable {w : Char}

theorem cutFraction_blank (hw : isBlank w) (cs more : List Char) :
    cutFraction (cs ++ w :: more) = ((cutFraction cs).1, (cutFraction cs).2 ++ w :: more) := by
  obtain ⟨hdigit, -, hpoint, -⟩ := isBlank_ends hw
  rcases cs with _ | ⟨c, _ | ⟨d, cs⟩⟩
  · simp [cutFraction, hpoint]
  · by_cases hc : c = '.' <;> simp [cutFraction, hc, hdigit]
  · by_cases hc : c = '.'
    · subst hc
      simp only [List.cons_append, cutFraction, takeWhile_append_cons hdigit, dropWhile_append_cons hdigit]
      split <;> simp
    · simp [cutFraction, hc]

/-- A number ends before a blank, whatever comes after that. -/
theorem number_blank (hw : isBlank w) (c : Char) (cs more : List Char) :
    number c (cs ++ w :: more) = ((number c cs).1, (number c cs).2 ++ w :: more) := by
  have hdigit := (isBlank_ends hw).1
  simp [number, takeWhile_append_cons hdigit, dropWhile_append_cons hdigit, cutFraction_blank hw]

/-- So does a word. -/
theorem word_blank (hw : isBlank w) (c : Char) (cs more : List Char) :
    word c (cs ++ w :: more) = ((word c cs).1, (word c cs).2 ++ w :: more) := by
  have hpart := (isBlank_ends hw).2.1
  simp [word, takeWhile_append_cons hpart, dropWhile_append_cons hpart]

theorem mark_blank (hw : isBlank w) (m : Mark) (c : Char) (cs more : List Char) :
    mark m c (cs ++ w :: more) = ((mark m c cs).1, (mark m c cs).2 ++ w :: more) := by
  have hequal := (isBlank_ends hw).2.2.2.1
  unfold mark
  cases m.withEqual? with
  | none => rfl
  | some longer =>
    cases cs with
    | nil => simp [hequal]
    | cons d cs => by_cases hd : d = '=' <;> simp [hd]

theorem takeWhile_append_of_dropWhile {p : Char → Bool} {cs : List Char} (h : cs.dropWhile p ≠ []) (more : List Char) :
    (cs ++ more).takeWhile p = cs.takeWhile p := by
  induction cs with
  | nil => exact absurd rfl h
  | cons c cs ih =>
    rw [List.cons_append, List.takeWhile_cons, List.takeWhile_cons]
    rw [List.dropWhile_cons] at h
    split
    · next hc =>
      rw [if_pos hc] at h
      rw [ih h]
    · rfl

theorem cutAtQuote?_append_right {cs text rest : List Char} (h : cutAtQuote? cs = some (text, rest))
    (more : List Char) : cutAtQuote? (cs ++ more) = some (text, rest ++ more) := by
  unfold cutAtQuote? at h ⊢
  split at h
  · cases h
  · next q tail hdrop =>
    cases h
    have hne : cs.dropWhile (!isQuote ·) ≠ [] := by simp [hdrop]
    have htake := takeWhile_append_of_dropWhile hne more
    have hdrop' : (cs ++ more).dropWhile (!isQuote ·) = q :: (rest ++ more) := by
      rw [List.dropWhile_append, hdrop]
      rfl
    rw [hdrop', htake]

theorem cutAtClose?_append_right {cs before rest : List Char} (h : cutAtClose? cs = some (before, rest))
    (more : List Char) : cutAtClose? (cs ++ more) = some (before, rest ++ more) := by
  fun_induction cutAtClose? cs generalizing before rest with
  | case1 => cases h
  | case2 tail => cases h; rfl
  | case3 c cs hne ih =>
    obtain ⟨⟨b, r⟩, hcut, heq⟩ := Option.map_eq_some_iff.1 h
    cases heq
    cases cs with
    | nil => cases hcut
    | cons d cs =>
      have hne' : ∀ tail, c = '*' → d :: (cs ++ more) = '/' :: tail → False := by
        intro tail hc hd
        obtain ⟨rfl, -⟩ := List.cons.inj hd
        exact hne cs hc rfl
      rw [List.cons_append, List.cons_append, cutAtClose?.eq_3 _ _ hne', ← List.cons_append, ih hcut]
      rfl

/-- A string that is closed ends where it ends, whatever follows. -/
theorem string_append_right {cs : List Char} (h : (string cs).1.form.isClosed) (more : List Char) :
    string (cs ++ more) = ((string cs).1, (string cs).2 ++ more) := by
  unfold string at h ⊢
  cases hcut : cutAtQuote? cs with
  | none => rw [hcut] at h; cases h
  | some r =>
    obtain ⟨text, rest⟩ := r
    rw [cutAtQuote?_append_right hcut]

/-- A slash that is a mark is one before a blank too, and a line comment ends at a newline only. -/
theorem slash_blank (hw : isBlank w) {cs : List Char} (h : (slash cs).1.form.isClosed)
    (hline : (slash cs).1.form = .comment → w = '\n') (more : List Char) :
    slash (cs ++ w :: more) = ((slash cs).1, (slash cs).2 ++ w :: more) := by
  unfold slash at h hline ⊢
  split at h
  · next rest =>
    have hstop : (w != '\n') = false := by rw [hline rfl]; rfl
    simp only [List.cons_append, takeWhile_append_cons (p := (· != '\n')) hstop,
      dropWhile_append_cons (p := (· != '\n')) hstop]
  · next rest =>
    cases hcut : cutAtClose? rest with
    | none => rw [hcut] at h; cases h
    | some r =>
      simp only [List.cons_append]
      obtain ⟨before, rest'⟩ := r
      rw [cutAtClose?_append_right hcut]
  · next hslash hstar =>
    cases cs with
    | nil => simp [(isBlank_ends hw).2.2.2.2]
    | cons c cs =>
      have hslash' : c ≠ '/' := fun hc => hslash cs (by rw [hc])
      have hstar' : c ≠ '*' := fun hc => hstar cs (by rw [hc])
      simp [hslash', hstar']

/-- A piece that ends is cut as before when a blank follows, but a line comment only if the blank is a newline. -/
theorem first_blank (hw : isBlank w) {c : Char} {cs : List Char} (h : (first c cs).1.form.isClosed)
    (hline : (first c cs).1.form = .comment → w = '\n') (more : List Char) :
    first c (cs ++ w :: more) = ((first c cs).1, (first c cs).2 ++ w :: more) := by
  unfold first at h hline ⊢
  split
  · next hc =>
    rw [if_pos hc] at h
    exact string_append_right h _
  next hquote =>
  rw [if_neg hquote] at h hline
  split
  · next hc =>
    rw [if_pos hc] at h hline
    exact slash_blank hw h hline _
  split
  · exact number_blank hw c cs more
  split
  · exact word_blank hw c cs more
  split
  · rfl
  split
  · exact mark_blank hw _ c cs more
  · rfl

/-- A text of which every piece ends is cut as before when another follows on the next line. -/
theorem ofSource_newline {cs : List Char} (h : ∀ p ∈ ofSource cs, p.form.isClosed) (more : List Char) :
    ofSource (cs ++ '\n' :: more) = ofSource cs ++ ⟨.blank, ['\n']⟩ :: ofSource more := by
  fun_induction ofSource cs with
  | case1 =>
    rw [List.nil_append, ofSource]
    rfl
  | case2 c cs ih =>
    rw [List.cons_append, ofSource, first_blank rfl (h _ List.mem_cons_self) fun _ => rfl]
    rw [ih fun p hp => h p (List.mem_cons_of_mem _ hp)]
    rfl

/-- Empty lines before a text are blanks. -/
theorem ofSource_blankLines (n : Nat) (cs : List Char) :
    ofSource (List.replicate n '\n' ++ cs) = List.replicate n ⟨.blank, ['\n']⟩ ++ ofSource cs := by
  induction n with
  | zero => rfl
  | succ n ih =>
    have hclosed : ∀ p ∈ ofSource [], p.form.isClosed := by simp [ofSource]
    have hfirst := ofSource_newline hclosed (List.replicate n '\n' ++ cs)
    rw [List.replicate_succ, List.replicate_succ, List.cons_append, List.cons_append, ← ih]
    simpa [ofSource] using hfirst

theorem first_not_finish (c : Char) (cs : List Char) : (first c cs).1.form ≠ .token .finish := by
  have hword : ∀ text, wordKind text ≠ .finish := by
    intro text
    unfold wordKind
    split <;> nofun
  unfold first string slash number word mark
  repeat' split
  all_goals simp [hword]

theorem ofSource_not_finish {source : List Char} {p : Piece} (h : p ∈ ofSource source) :
    p.form ≠ .token .finish := by
  fun_induction ofSource source with
  | case1 => cases h
  | case2 c cs ih =>
    rcases List.mem_cons.1 h with rfl | h
    · exact first_not_finish c cs
    · exact ih h

/-- The newlines of pieces are those of the text. -/
theorem newlines_ofSource (source : List Char) : ((ofSource source).map newlines).sum = source.count '\n' := by
  have h := congrArg (List.count '\n') (flatten_ofSource source)
  rw [List.count_flatMap] at h
  exact h

end Piece

namespace Item

def relined (line : Nat → Nat) : Item → Item
  | token t => token (t.relined line)
  | error e => error { e with line := line e.line }

theorem tokens_relined (line : Nat → Nat) (is : List Item) :
    (is.map (relined line)).filterMap token? = (is.filterMap token?).map (Token.relined line) := by
  rw [List.filterMap_map, List.map_filterMap]
  congr 1
  funext i
  cases i <;> rfl

theorem errors_relined {line : Nat → Nat} {is : List Item} (h : is.filterMap error? = []) :
    (is.map (relined line)).filterMap error? = [] := by
  rw [List.filterMap_eq_nil_iff] at h ⊢
  intro i hi
  obtain ⟨j, hj, rfl⟩ := List.mem_map.1 hi
  have hnone := h j hj
  cases j with
  | token t => rfl
  | error e => cases hnone

/-- What pieces yield before the end of the source. -/
def before (line : Nat) : List Piece → List Item
  | [] => []
  | p :: ps => (p.item? line).toList ++ before (line + p.newlines) ps

theorem ofPieces_eq (line : Nat) (ps : List Piece) :
    ofPieces line ps = before line ps ++ [.token ⟨.finish, "", line + (ps.map Piece.newlines).sum⟩] := by
  induction ps generalizing line with
  | nil => rfl
  | cons p ps ih =>
    rw [ofPieces, before, ih, List.map_cons, List.sum_cons, List.append_assoc, Nat.add_assoc]

/-- Lines are counted on from the first pieces to the others. -/
theorem before_append (line : Nat) (ps qs : List Piece) :
    before line (ps ++ qs) = before line ps ++ before (line + (ps.map Piece.newlines).sum) qs := by
  induction ps generalizing line with
  | nil => rfl
  | cons p ps ih =>
    rw [List.cons_append, before, before, ih, List.map_cons, List.sum_cons, List.append_assoc, Nat.add_assoc]

theorem item?_down (line n : Nat) (p : Piece) : p.item? (line + n) = (p.item? line).map (relined (· + n)) := by
  unfold Piece.item?
  cases p.form with
  | openString | openComment => simp [relined, Nat.add_right_comm]
  | _ => rfl

/-- The same pieces further down. -/
theorem before_down (line n : Nat) (ps : List Piece) :
    before (line + n) ps = (before line ps).map (relined (· + n)) := by
  induction ps generalizing line with
  | nil => rfl
  | cons p ps ih =>
    rw [before, before, List.map_append, item?_down, Nat.add_right_comm, ih]
    cases p.item? line <;> rfl

theorem not_finish_of_before {line : Nat} {ps : List Piece} (hps : ∀ p ∈ ps, p.form ≠ .token .finish) {t : Token}
    (h : token t ∈ before line ps) : t.kind ≠ .finish := by
  induction ps generalizing line with
  | nil => cases h
  | cons p ps ih =>
    rw [before, List.mem_append] at h
    rcases h with h | h
    · have hp := hps p List.mem_cons_self
      rw [Option.mem_toList] at h
      unfold Piece.item? at h
      split at h
      · next kind hform =>
        cases h
        intro hk
        exact hp (hform.trans (congrArg Piece.Form.token hk))
      all_goals cases h
    · exact ih (fun q hq => hps q (List.mem_cons_of_mem _ hq)) h

/-- Where nothing is told of an open string or comment, each piece has its end. -/
theorem closed_of_before {line : Nat} {ps : List Piece}
    (h : ∀ e ∈ (before line ps).filterMap error?, e.cause ≠ .unterminatedString ∧ e.cause ≠ .unterminatedComment) :
    ∀ p ∈ ps, p.form.isClosed := by
  induction ps generalizing line with
  | nil => intro p hp; cases hp
  | cons p ps ih =>
    rw [before, List.filterMap_append] at h
    intro q hq
    rcases List.mem_cons.1 hq with rfl | hq
    · unfold Piece.item? at h
      cases hform : q.form with
      | openString =>
        rw [hform] at h
        exact absurd rfl (h _ (List.mem_append_left _ List.mem_cons_self)).1
      | openComment =>
        rw [hform] at h
        exact absurd rfl (h _ (List.mem_append_left _ List.mem_cons_self)).2
      | _ => rfl
    · exact ih (fun e he => h e (List.mem_append_right _ he)) q hq

end Item

namespace Source

def newlines (source : String) : Nat := source.toList.count '\n'

/-- Empty lines. -/
def blankLines (n : Nat) : String := String.ofList (List.replicate n '\n')

/-- The items before the end of a source. -/
def items (source : String) : List Item := Item.before 1 (Piece.ofSource source.toList)

/-- The tokens before the end of a source. -/
def tokens (source : String) : List Token := (Token.ofSource source).takeWhile (·.kind != .finish)

variable {a b : String}

/-- The end of the source is on the line after its last newline. -/
theorem ofSource_eq (source : String) :
    Item.ofSource source = items source ++ [.token ⟨.finish, "", 1 + newlines source⟩] := by
  unfold Item.ofSource items newlines
  rw [Item.ofPieces_eq, Piece.newlines_ofSource]

theorem lexicalErrors_eq (source : String) : LexicalError.ofSource source = (items source).filterMap Item.error? := by
  unfold LexicalError.ofSource
  rw [ofSource_eq, List.filterMap_append]
  exact List.append_nil _

theorem token_ofSource_eq (source : String) :
    Token.ofSource source = (items source).filterMap Item.token? ++ [⟨.finish, "", 1 + newlines source⟩] := by
  unfold Token.ofSource
  rw [ofSource_eq, List.filterMap_append]
  rfl

theorem tokens_eq (source : String) : tokens source = (items source).filterMap Item.token? := by
  unfold tokens
  rw [token_ofSource_eq, List.takeWhile_append_of_pos]
  · simp
  · intro t ht
    obtain ⟨i, hi, hit⟩ := List.mem_filterMap.1 ht
    cases i with
    | error e => cases hit
    | token u =>
      cases hit
      simpa using Item.not_finish_of_before (fun p hp => Piece.ofSource_not_finish hp) hi

/-- No string and no comment is left open in the source. -/
def IsClosed (source : String) : Prop :=
  ∀ e ∈ LexicalError.ofSource source, e.cause ≠ .unterminatedString ∧ e.cause ≠ .unterminatedComment

theorem isClosed_of_no_errors (ha : LexicalError.ofSource a = []) : IsClosed a := by
  intro e he
  rw [ha] at he
  cases he

/-- The items before the end of the first source are unchanged, and those of the second come on their lines below. -/
theorem items_seam (ha : IsClosed a) (b : String) :
    items (a ++ "\n" ++ b) = items a ++ (items b).map (Item.relined (· + (newlines a + 1))) := by
  unfold IsClosed at ha
  rw [lexicalErrors_eq] at ha
  have htext : (a ++ "\n" ++ b).toList = a.toList ++ '\n' :: b.toList := by simp
  have hblank : Item.before (1 + newlines a) (⟨.blank, ['\n']⟩ :: Piece.ofSource b.toList) =
      Item.before (1 + (newlines a + 1)) (Piece.ofSource b.toList) := rfl
  unfold items
  rw [htext, Piece.ofSource_newline (Item.closed_of_before ha), Item.before_append, Piece.newlines_ofSource]
  rw [← Item.before_down, ← hblank]
  rfl

/-- What a source yields stands unchanged before what another yields on the lines after it, further down by the lines
of the first. Other errors than a text left open do not matter. -/
theorem items_of_lines {a : String} (ha : IsClosed a) (b : String) :
    Item.ofSource a = items a ++ [.token ⟨.finish, "", 1 + newlines a⟩] ∧
      Item.ofSource (a ++ "\n" ++ b) = items a ++ (Item.ofSource b).map (Item.relined (· + (newlines a + 1))) := by
  have hlines : 1 + newlines (a ++ "\n" ++ b) = 1 + newlines b + (newlines a + 1) := by
    simp [newlines]
    omega
  refine ⟨ofSource_eq a, ?_⟩
  rw [ofSource_eq, items_seam ha, ofSource_eq b, List.map_append, List.append_assoc, hlines]
  rfl

/-- The first source ends in a line comment, behind a character that begins nothing, and the second yields an error. -/
theorem items_of_lines_comment :
    IsClosed "a=\n@ 1.//\"" ∧
      Item.ofSource ("a=\n@ 1.//\"" ++ "\n" ++ "=/*") =
        items "a=\n@ 1.//\"" ++ (Item.ofSource "=/*").map (Item.relined (· + 2)) :=
  have hclosed : IsClosed "a=\n@ 1.//\"" := by
    unfold IsClosed
    decide +kernel
  ⟨hclosed, (items_of_lines hclosed "=/*").2⟩

theorem lexicalErrors_seam (ha : LexicalError.ofSource a = []) (hb : LexicalError.ofSource b = []) :
    LexicalError.ofSource (a ++ "\n" ++ b) = [] := by
  rw [lexicalErrors_eq, items_seam (isClosed_of_no_errors ha), List.filterMap_append, ← lexicalErrors_eq, ha,
    List.nil_append]
  rw [lexicalErrors_eq] at hb
  exact Item.errors_relined hb

theorem tokens_seam (ha : LexicalError.ofSource a = []) (b : String) :
    tokens (a ++ "\n" ++ b) = tokens a ++ (tokens b).map (Token.relined (· + (newlines a + 1))) := by
  rw [tokens_eq, tokens_eq, tokens_eq, items_seam (isClosed_of_no_errors ha), List.filterMap_append,
    Item.tokens_relined]

/-- A source below empty lines has the same items, as many lines further down. -/
theorem items_blankLines (n : Nat) (b : String) : items (blankLines n ++ b) = (items b).map (Item.relined (· + n)) := by
  have hblank : ∀ line, Item.before line (List.replicate n ⟨.blank, ['\n']⟩) = [] := by
    intro line
    induction n generalizing line with
    | zero => rfl
    | succ n ih => exact ih (line + 1)
  have hlines : ((List.replicate n (⟨.blank, ['\n']⟩ : Piece)).map Piece.newlines).sum = n := by
    simp [Piece.newlines]
  unfold items blankLines
  rw [String.toList_append, String.toList_ofList, Piece.ofSource_blankLines, Item.before_append, hblank, hlines,
    Item.before_down, List.nil_append]

theorem lexicalErrors_blankLines (n : Nat) (hb : LexicalError.ofSource b = []) :
    LexicalError.ofSource (blankLines n ++ b) = [] := by
  rw [lexicalErrors_eq] at hb
  rw [lexicalErrors_eq, items_blankLines]
  exact Item.errors_relined hb

theorem newlines_blankLines (n : Nat) (b : String) : newlines (blankLines n ++ b) = n + newlines b := by
  simp [newlines, blankLines]

theorem token_ofSource_blankLines (n : Nat) (b : String) :
    Token.ofSource (blankLines n ++ b) = (Token.ofSource b).map (Token.relined (· + n)) := by
  rw [token_ofSource_eq, token_ofSource_eq, items_blankLines, Item.tokens_relined, newlines_blankLines,
    List.map_append, List.map_singleton]
  simp [Token.relined, Nat.add_comm, Nat.add_left_comm]

end Source

end LoxLang
