import LoxLang.Proofs.Token.Scanning

namespace LoxLang

open Piece

/-- No text is the end of the source. -/
theorem Lexeme.not_finish {l : List Char} {k : Token.Kind} (h : Lexeme l k) : k ≠ .finish := by
  cases h <;> nofun

namespace Source

/-- A part of a source with what it yields, and with what follows it. -/
inductive Stretch : List Char → List Item → List Char → Prop
  | token {t : Token} {rest : List Char} (h : Lexeme t.lexeme.toList t.kind) :
    Stretch t.lexeme.toList [.token t] rest
  | blank {c : Char} {rest : List Char} (h : isBlank c) : Stretch [c] [] rest
  | line {body rest : List Char} (h : '\n' ∉ body) (hrest : ∀ c ∈ rest.head?, c = '\n') :
    Stretch ('/' :: '/' :: body) [] rest
  | block {body rest : List Char} (h : ¬['*', '/'] <:+: body) : Stretch ('/' :: '*' :: body ++ ['*', '/']) [] rest
  | stray {c : Char} {line : Nat} {rest : List Char} : Stretch [c] [.error ⟨.unexpectedCharacter, line⟩] rest
  /-- Nothing follows what is never closed. -/
  | openString {body : List Char} {line : Nat} (h : '"' ∉ body) :
    Stretch ('"' :: body) [.error ⟨.unterminatedString, line⟩] []
  | openComment {body : List Char} {line : Nat} (h : ¬['*', '/'] <:+: body) :
    Stretch ('/' :: '*' :: body) [.error ⟨.unterminatedComment, line⟩] []

/-- A text cut into stretches from end to end, with what they yield in order. -/
inductive Partition : List Char → List Item → Prop
  | nil : Partition [] []
  | cons {text rest : List Char} {is items : List Item} (h : Stretch text is rest) (hrest : Partition rest items) :
    Partition (text ++ rest) (is ++ items)

/-- What is never closed is the last there is, and any other error is about one character. -/
theorem Stretch.of_error {text rest : List Char} {is : List Item} {e : LexicalError} (h : Stretch text is rest)
    (he : .error e ∈ is) : e.cause = .unexpectedCharacter ∧ (∃ c, text = [c]) ∨
      e.cause ≠ .unexpectedCharacter ∧ rest = [] := by
  cases h with
  | stray =>
    cases List.mem_singleton.1 he
    exact .inl ⟨rfl, _, rfl⟩
  | openString _ | openComment _ =>
    cases List.mem_singleton.1 he
    exact .inr ⟨nofun, rfl⟩
  | token _ => cases List.mem_singleton.1 he
  | blank _ | line _ _ | block _ => cases he

theorem Stretch.of_token {text rest : List Char} {is : List Item} {t : Token} (h : Stretch text is rest)
    (ht : .token t ∈ is) : text = t.lexeme.toList ∧ Lexeme t.lexeme.toList t.kind := by
  cases h with
  | token h =>
    cases List.mem_singleton.1 ht
    exact ⟨rfl, h⟩
  | stray | openString _ | openComment _ => cases List.mem_singleton.1 ht
  | blank _ | line _ _ | block _ => cases ht

/-- A stretch yields one item at most. -/
theorem Stretch.dropLast {text rest : List Char} {is : List Item} (h : Stretch text is rest) : is.dropLast = [] := by
  cases h <;> rfl

/-- A stretch is not empty, so there are only so many of them. -/
theorem Stretch.ne_nil {text rest : List Char} {is : List Item} (h : Stretch text is rest) : text ≠ [] := by
  cases h with
  | token h => exact h.ne_nil
  | _ => simp

namespace Partition

variable {text : List Char} {items : List Item}

theorem isLexeme {t : Token} (h : Partition text items) (ht : .token t ∈ items) : Lexeme t.lexeme.toList t.kind := by
  induction h with
  | nil => cases ht
  | cons h _ ih =>
    rcases List.mem_append.1 ht with ht | ht
    · exact (h.of_token ht).2
    · exact ih ht

theorem eq_nil_of_text (h : Partition text items) (htext : text = []) : items = [] := by
  cases h with
  | nil => rfl
  | cons h hrest =>
    obtain ⟨rfl, -⟩ := List.append_eq_nil_iff.1 htext
    exact absurd rfl h.ne_nil

/-- What is never closed is told last. -/
theorem of_error {e : LexicalError} (h : Partition text items) (he : .error e ∈ items.dropLast) :
    e.cause = .unexpectedCharacter := by
  induction h with
  | nil => cases he
  | @cons _ _ is items h hrest ih =>
    cases items with
    | nil =>
      rw [List.append_nil, h.dropLast] at he
      cases he
    | cons i items =>
      rw [List.dropLast_append_cons, List.mem_append] at he
      rcases he with he | he
      · rcases h.of_error he with ⟨hcause, -⟩ | ⟨-, hend⟩
        · exact hcause
        · cases hrest.eq_nil_of_text hend
      · exact ih he

end Partition

end Source

namespace Piece

open Source

variable {line : Nat} {c : Char} {cs rest : List Char}

/-- The piece is a stretch of a text that goes on in this way. -/
def Stretches (p : Piece) (line : Nat) (rest : List Char) : Prop := Stretch p.text (p.item? line).toList rest

theorem stretches_of_lexeme {p : Piece} {k : Token.Kind} (hform : p.form = .token k) (h : Lexeme p.text k) :
    p.Stretches line rest := by
  rw [← String.toList_ofList (l := p.text)] at h
  have hstretch := @Stretch.token ⟨k, String.ofList p.text, line⟩ rest h
  unfold Stretches item?
  rw [hform]
  rwa [String.toList_ofList] at hstretch

/-- A string is a lexeme as far as its closing quote; without one it is the rest of the text. -/
theorem string_stretches (cs : List Char) : (string cs).1.Stretches line (string cs).2 := by
  unfold string
  cases hcut : cutAtQuote? cs with
  | none => exact .openString (cutAtQuote?_none hcut)
  | some cut => exact stretches_of_lexeme rfl (.string (cutAtQuote?_some hcut))

theorem slash_stretches (cs : List Char) : (slash cs).1.Stretches line (slash cs).2 := by
  unfold slash
  split
  · next rest =>
    have hbody : '\n' ∉ rest.takeWhile (· != '\n') := fun h => by simpa using List.mem_takeWhile_imp h
    refine .line hbody fun d hd => ?_
    have := List.head?_dropWhile_not (· != '\n') rest
    rw [hd] at this
    simpa using this
  · next rest =>
    cases hcut : cutAtClose? rest with
    | none => exact .openComment (cutAtClose?_none hcut)
    | some cut => exact .block (cutAtClose?_some hcut)
  · exact stretches_of_lexeme rfl (.mark .slash)

theorem mark_stretches {m : Mark} (hm : Mark.ofChar? c = some m) (hs : c ≠ '/') (cs : List Char) :
    (mark m c cs).1.Stretches line (mark m c cs).2 := by
  obtain ⟨m', hform⟩ : ∃ m', (mark m c cs).1.form = .token (.mark m') := by
    unfold mark
    split <;> exact ⟨_, rfl⟩
  exact stretches_of_lexeme hform ((mark_fits hm hs cs).longest _ hform).isLexeme

theorem first_stretches (line : Nat) (c : Char) (cs : List Char) : (first c cs).1.Stretches line (first c cs).2 := by
  unfold first
  split
  · exact string_stretches cs
  split
  · exact slash_stretches cs
  next hslash =>
  split
  · next hdigit =>
    obtain ⟨k, hform, hlexeme⟩ := number_lexeme hdigit cs
    exact stretches_of_lexeme hform hlexeme
  split
  · next hword => exact stretches_of_lexeme rfl (wordKind_lexeme hword fun d hd => List.mem_takeWhile_imp hd)
  split
  · next hblank => exact .blank hblank
  split
  · next hmark => exact mark_stretches hmark hslash cs
  · exact .stray

theorem partition_ofSource (line : Nat) (cs : List Char) : Partition cs (Item.before line (ofSource cs)) := by
  fun_induction ofSource cs generalizing line with
  | case1 => exact .nil
  | case2 c cs ih =>
    have h := Partition.cons (first_stretches line c cs) (ih (line + (first c cs).1.newlines))
    rwa [first_append] at h

end Piece

namespace Scanner

open Text Source

variable {source : String} {s : Scanner} {is : List Item}

/-- The line of an item is that of the place where the scanner has found it. -/
inductive LineExact (source : String) (s : Scanner) : Item → Prop
  | token {t : Token} {before : String} (hk : t.kind ≠ .finish) (hbefore : slice? source 0 s.start = some before)
    (hlexeme : slice? source s.start s.position = some t.lexeme) (hline : t.line = 1 + newlines before) :
    LineExact source s (.token t)
  | finish : LineExact source s (.token ⟨.finish, "", 1 + newlines source⟩)
  | stray {before : String} {c : Char} (hbefore : slice? source 0 s.start = some before)
    (hc : slice? source s.start s.position = some (String.ofList [c])) :
    LineExact source s (.error ⟨.unexpectedCharacter, 1 + newlines before⟩)
  | openString : LineExact source s (.error ⟨.unterminatedString, 1 + newlines source⟩)
  | openComment : LineExact source s (.error ⟨.unterminatedComment, 1 + newlines source⟩)

/-- The scanner stands between two pieces, or beyond its source, and these items are to come. -/
inductive Stands (source : String) : Scanner → List Item → Prop
  | within {s : Scanner} {before rest : List Char} (h : At s before rest) (hsource : s.source = source)
    (hline : s.line = 1 + before.count '\n') : Stands source s (Item.ofPieces s.line (Piece.ofSource rest))
  | beyond {s : Scanner} (h : s.size < s.position) : Stands source s []

/-- The scanner starts between two pieces, with all items to come. -/
theorem ofSource_stands (source : String) : Stands source (ofSource source) (Item.ofSource source) := by
  have h : At (ofSource source) [] source.toList := ⟨rfl, rfl⟩
  exact .within h rfl rfl

variable {t : Scanner}

theorem next_of_error {e : LexicalError} (hlt : s.position < s.size) (h : s.begun.scanToken = some (some e, t)) :
    s.next = some (some (.error e), t) := by
  rw [next, if_pos (Nat.le_of_lt hlt), if_neg (Nat.ne_of_lt hlt)]
  split
  · next ht =>
    cases h.symm.trans ht
    rfl
  · next ht => cases h.symm.trans ht
  · next ht => cases h.symm.trans ht

theorem next_of_pending {kind : Token.Kind} {text : String} (hlt : s.position < s.size)
    (h : s.begun.scanToken = some (none, t)) (hkind : t.pending = some kind) (htext : t.lexeme? = some text) :
    s.next = some (some (.token ⟨kind, text, t.startLine⟩), { t with pending := none }) := by
  rw [next, if_pos (Nat.le_of_lt hlt), if_neg (Nat.ne_of_lt hlt)]
  split
  · next ht => cases h.symm.trans ht
  · next ht =>
    cases h.symm.trans ht
    rw [hkind]
    dsimp only
    rw [htext]
    rfl
  · next ht => cases h.symm.trans ht

theorem next_of_skipped (hlt : s.position < s.size) (h : s.begun.scanToken = some (none, t))
    (hkind : t.pending = none) : s.next = t.next := by
  rw [next, if_pos (Nat.le_of_lt hlt), if_neg (Nat.ne_of_lt hlt)]
  split
  · next ht => cases h.symm.trans ht
  · next ht =>
    cases h.symm.trans ht
    rw [hkind]
  · next ht => cases h.symm.trans ht

variable {before cs rest : List Char} {c : Char}

/-- The scanner behind a piece that is not a token any more. -/
def behind (s : Scanner) (p : Piece) : Scanner := { s.begun.past p with pending := none }

/-- What is to be told of the next piece is told next; if there is nothing to tell, then what the scanner tells behind
that piece. -/
theorem next_piece (h : At s before (c :: cs)) :
    s.next = match (first c cs).1.item? s.line with
      | some item => some (some item, s.behind (first c cs).1)
      | none => (s.behind (first c cs).1).next := by
  have hlt : s.position < s.size := by
    have hne : encode (c :: cs) ≠ [] := by simp [encode_cons, encoded_ne_nil]
    have := List.length_pos_iff.2 hne
    rw [size_eq h.rest?]
    omega
  have hscan := scanToken_eq (s := s.begun) ⟨h.source, h.position⟩ rfl rfl
  have hlexeme : (s.begun.past (first c cs).1).lexeme? = some (String.ofList (first c cs).1.text) := by
    change slice? s.source s.position (s.position + (encode (first c cs).1.text).length) = _
    rw [h.position]
    refine slice?_eq before (first c cs).1.text (first c cs).2 ?_
    rw [h.source, List.append_assoc, first_append]
  unfold behind
  unfold error? item? at hscan
  unfold item?
  cases hform : (first c cs).1.form with
  | token k =>
    rw [hform] at hscan
    exact next_of_pending hlt hscan (by rw [past, hform]; rfl) hlexeme
  | blank | comment =>
    rw [hform] at hscan
    have hpending : (s.begun.past (first c cs).1).pending = none := by rw [past, hform]; rfl
    rw [← hpending]
    exact next_of_skipped hlt hscan hpending
  | stray | openString | openComment =>
    rw [hform] at hscan
    have hpending : (s.begun.past (first c cs).1).pending = none := by rw [past, hform]; rfl
    rw [← hpending]
    exact next_of_error hlt hscan

theorem behind_at (h : At s before (c :: cs)) :
    At (s.behind (first c cs).1) (before ++ (first c cs).1.text) (first c cs).2 := by
  refine ⟨?_, ?_⟩
  · rw [List.append_assoc, first_append]
    exact h.source
  · rw [encode_append, List.length_append, ← h.position]
    rfl

/-- A piece is on the line where it ends, an unterminated one where it begins. -/
theorem behind_exact (h : At s before (c :: cs)) (hline : s.line = 1 + before.count '\n') {item : Item}
    (hitem : (first c cs).1.item? s.line = some item) : LineExact s.source (s.behind (first c cs).1) item := by
  have hstretch := first_stretches s.line c cs
  have happend := first_append c cs
  have hkind := first_not_finish c cs
  unfold Stretches at hstretch
  rw [hitem] at hstretch
  generalize (first c cs).1 = p at *
  generalize (first c cs).2 = r at *
  have hbefore : slice? s.source 0 s.position = some (String.ofList before) := by
    have := slice?_eq [] before (c :: cs) h.source
    rwa [encode_nil, List.length_nil, Nat.zero_add, ← h.position] at this
  have htext : slice? s.source s.position (s.position + (encode p.text).length) = some (String.ofList p.text) := by
    rw [h.position]
    refine slice?_eq before p.text r ?_
    rw [h.source, List.append_assoc, happend]
  have hhere : s.line = 1 + Source.newlines (String.ofList before) := by
    rw [Source.newlines, String.toList_ofList, hline]
  -- What is never closed takes the rest of the source with all its lines.
  have hlast : r = [] → s.line + p.newlines = 1 + Source.newlines s.source := by
    rintro rfl
    rw [List.append_nil] at happend
    rw [hline, Source.newlines, h.source, ← happend, List.count_append, Nat.add_assoc]
    rfl
  unfold item? at hitem
  cases hform : p.form with
  | token k =>
    rw [hform] at hitem hkind
    cases hitem
    exact .token (fun hk => hkind (congrArg _ hk)) hbefore htext hhere
  | blank | comment =>
    rw [hform] at hitem
    cases hitem
  | stray =>
    rw [hform] at hitem
    cases hitem
    rcases hstretch.of_error List.mem_cons_self with ⟨-, d, hd⟩ | ⟨hcause, -⟩
    · rw [hhere]
      exact .stray hbefore (by rw [← hd]; exact htext)
    · exact absurd rfl hcause
  | openString | openComment =>
    rw [hform] at hitem
    cases hitem
    rcases hstretch.of_error List.mem_cons_self with ⟨hcause, -⟩ | ⟨-, hr⟩
    · cases hcause
    · rw [hlast hr]
      constructor

/-- Pieces that yield nothing are passed over, by induction on the text that is left. -/
theorem next_within (h : At s before rest) (hline : s.line = 1 + before.count '\n') :
    ∃ item items s', Item.ofPieces s.line (Piece.ofSource rest) = item :: items ∧ s.next = some (some item, s') ∧
      Stands s.source s' items ∧ LineExact s.source s' item := by
  fun_induction Piece.ofSource rest generalizing s before with
  | case1 =>
    have hend : s.position = s.size := (size_eq h.rest?).symm
    refine ⟨_, _, { s with position := s.position + 1 }, rfl, ?_, .beyond ?_, ?_⟩
    · rw [next, if_pos (Nat.le_of_eq hend), if_pos hend]
    · change s.size < s.position + 1
      omega
    · have hsource := h.source
      rw [List.append_nil] at hsource
      have hlast : s.line = 1 + Source.newlines s.source := by rw [hline, Source.newlines, hsource]
      rw [hlast]
      exact .finish
  | case2 c cs ih =>
    have hat := behind_at h
    have hbehind : (s.behind (first c cs).1).line = 1 + (before ++ (first c cs).1.text).count '\n' := by
      rw [List.count_append, ← Nat.add_assoc, ← hline]
      rfl
    rw [Item.ofPieces, next_piece h]
    cases hitem : (first c cs).1.item? s.line with
    | none => exact ih hat hbehind
    | some item => exact ⟨item, _, _, rfl, rfl, .within hat rfl hbehind, behind_exact h hline hitem⟩

/-- The scanner tells the next item on the line of its place, and stands behind it. -/
theorem next_stands (h : Stands source s is) :
    ∃ s', s.next = some (is.head?, s') ∧ Stands source s' is.tail ∧ ∀ item ∈ is.head?, LineExact source s' item := by
  cases h with
  | within hs hsource hline =>
    subst hsource
    obtain ⟨item, items, s', heq, hnext, hstands, hexact⟩ := next_within hs hline
    rw [heq]
    refine ⟨s', hnext, hstands, ?_⟩
    rintro _ ⟨⟩
    exact hexact
  | beyond hs =>
    refine ⟨s, ?_, .beyond hs, nofun⟩
    rw [next, if_neg (Nat.not_le.2 hs)]
    rfl

/-- Asked so many times it has told as many items, or all. -/
theorem after_stands (h : Stands source s is) (n : Nat) : ∃ s', s.after n = some s' ∧ Stands source s' (is.drop n) := by
  induction n generalizing s is with
  | zero => exact ⟨s, rfl, h⟩
  | succ n ih =>
    obtain ⟨t, hnext, ht, -⟩ := next_stands h
    obtain ⟨s', hafter, hs'⟩ := ih ht
    rw [List.drop_tail] at hs'
    refine ⟨s', ?_, hs'⟩
    rw [after, hnext]
    exact hafter

/-- Asked for the next item again and again the scanner tells the items of its source, and then nothing for ever. -/
theorem answer?_ofSource (source : String) (n : Nat) :
    (ofSource source).answer? n = some (Item.ofSource source)[n]? := by
  obtain ⟨s, hafter, hs⟩ := after_stands (ofSource_stands source) n
  obtain ⟨s', hnext, -⟩ := next_stands hs
  unfold answer?
  rw [hafter, Option.bind_some, hnext, Option.map_some, List.head?_drop]

/-- The line of each item is that of its place in the source. -/
theorem lines_are_exact {source : String} {n : Nat} {item : Item} (h : (Item.ofSource source)[n]? = some item) :
    ∃ s s', (ofSource source).after n = some s ∧ s.next = some (some item, s') ∧ LineExact source s' item := by
  obtain ⟨s, hafter, hs⟩ := after_stands (ofSource_stands source) n
  obtain ⟨s', hnext, -, hexact⟩ := next_stands hs
  rw [List.head?_drop, h] at hnext hexact
  exact ⟨s, s', hafter, hnext, hexact item rfl⟩

/-- A word behind a string and a comment of two lines each. -/
theorem lines_are_exact_word :
    (Item.ofSource "é\n\"a\nb\" /* \n */ x // y\n$")[2]? = some (.token ⟨.identifier, "x", 4⟩) ∧
      ∃ s s', (ofSource "é\n\"a\nb\" /* \n */ x // y\n$").after 2 = some s ∧
        s.next = some (some (.token ⟨.identifier, "x", 4⟩), s') ∧
        LineExact "é\n\"a\nb\" /* \n */ x // y\n$" s' (.token ⟨.identifier, "x", 4⟩) :=
  have hitem : (Item.ofSource "é\n\"a\nb\" /* \n */ x // y\n$")[2]? = some (.token ⟨.identifier, "x", 4⟩) := by
    decide +kernel
  ⟨hitem, lines_are_exact hitem⟩

end Scanner

namespace Source

/-- A source is cut into stretches from end to end, each of them a token, an error or what is skipped; what is never
closed is the last item before the end of the source, which is told once. The scanner tells what the stretches yield in
order, then that end, and then nothing for ever; none of its accesses lies outside the source or divides a character. -/
theorem scanner_partitions_source (source : String) :
    ∃ items line, Partition source.toList items ∧ (∀ t, .token t ∈ items → t.kind ≠ .finish) ∧
      (∀ e, .error e ∈ items.dropLast → e.cause = .unexpectedCharacter) ∧
      Item.ofSource source = items ++ [.token ⟨.finish, "", line⟩] ∧
      ∀ n, (Scanner.ofSource source).answer? n = some (Item.ofSource source)[n]? := by
  have hpartition := partition_ofSource 1 source.toList
  exact ⟨items source, 1 + newlines source, hpartition, fun t ht => (hpartition.isLexeme ht).not_finish,
    fun e he => hpartition.of_error he, ofSource_eq source, Scanner.answer?_ofSource source⟩

end Source

end LoxLang
