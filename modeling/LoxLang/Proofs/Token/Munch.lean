import Mathlib.Data.List.TakeWhile
import LoxLang.Proofs.Token.Lexemes
import LoxLang.Proofs.Token.Seam

namespace LoxLang

open Piece

namespace Piece

variable {c : Char} {cs text : List Char} {k : Token.Kind}

theorem not_isQuote (h : '"' ∉ text) : ∀ c ∈ text, (!isQuote c) = true := by
  intro c hc
  have : c ≠ '"' := fun hq => h (hq ▸ hc)
  simpa [isQuote] using this

/-- A string ends at its first quote. -/
theorem cutAtQuote?_eq (h : '"' ∉ text) (rest : List Char) : cutAtQuote? (text ++ '"' :: rest) = some (text, rest) := by
  unfold cutAtQuote?
  rw [List.dropWhile_append_of_pos (not_isQuote h), List.takeWhile_append_of_pos (not_isQuote h)]
  simp [isQuote]

theorem cutAtQuote?_none (h : cutAtQuote? cs = none) : '"' ∉ cs := by
  intro hq
  obtain ⟨before, after, rfl, hb⟩ := List.eq_append_cons_of_mem hq
  rw [cutAtQuote?_eq hb] at h
  cases h

theorem cutAtQuote?_some {rest : List Char} (h : cutAtQuote? cs = some (text, rest)) : '"' ∉ text := by
  unfold cutAtQuote? at h
  split at h
  · cases h
  · cases h
    intro hq
    simpa [isQuote] using List.mem_takeWhile_imp hq

theorem cutAtClose?_none (h : cutAtClose? cs = none) : ¬['*', '/'] <:+: cs := by
  fun_induction cutAtClose? cs with
  | case1 => simp
  | case2 => cases h
  | case3 c cs hne ih =>
    rw [Option.map_eq_none_iff] at h
    rw [List.infix_cons_iff]
    rintro (⟨rest, hrest⟩ | hin)
    · obtain ⟨rfl, rfl⟩ := List.cons.inj hrest
      exact hne rest rfl rfl
    · exact ih h hin

/-- The end of a comment is the first there is. -/
theorem cutAtClose?_some {before rest : List Char} (h : cutAtClose? cs = some (before, rest)) :
    ¬['*', '/'] <:+: before := by
  fun_induction cutAtClose? cs generalizing before rest with
  | case1 => cases h
  | case2 tail => cases h; simp
  | case3 c cs hne ih =>
    obtain ⟨⟨b, r⟩, hcut, heq⟩ := Option.map_eq_some_iff.1 h
    cases heq
    have hcs := cutAtClose?_append hcut
    rw [List.infix_cons_iff]
    rintro (⟨more, hmore⟩ | hin)
    · obtain ⟨rfl, rfl⟩ := List.cons.inj hmore
      exact hne _ rfl hcs.symm
    · exact ih hcut hin

theorem number_whole (h : ∀ d ∈ cs, d.isDigit) :
    number c cs = (⟨.token (.number (Number.read (c :: cs) [])), c :: cs⟩, []) := by
  unfold number
  rw [List.takeWhile_eq_self_iff.2 h, List.dropWhile_eq_nil_iff.2 h]
  rfl

/-- A point with digits on both sides is part of a number. -/
theorem number_fraction {whole fraction : List Char} (hw : ∀ d ∈ whole, d.isDigit) (hne : fraction ≠ [])
    (hf : ∀ d ∈ fraction, d.isDigit) (rest : List Char) :
    number c (whole ++ '.' :: (fraction ++ rest)) =
      (let more := fraction ++ rest.takeWhile Char.isDigit
      ⟨.token (.number (Number.read (c :: whole) more)), c :: whole ++ '.' :: more⟩, rest.dropWhile Char.isDigit) := by
  obtain ⟨d, ds, rfl⟩ := List.exists_cons_of_ne_nil hne
  have hds : ∀ e ∈ ds, e.isDigit := fun e he => hf e (List.mem_cons_of_mem _ he)
  have hpoint : Char.isDigit '.' = false := by decide
  unfold number
  rw [List.takeWhile_append_of_pos hw, List.dropWhile_append_of_pos hw]
  simp [hpoint, cutFraction, hf d List.mem_cons_self, List.takeWhile_append_of_pos hds,
    List.dropWhile_append_of_pos hds]

theorem word_whole (h : ∀ d ∈ cs, isWordPart d) : word c cs = (⟨.token (wordKind (c :: cs)), c :: cs⟩, []) := by
  unfold word
  rw [List.takeWhile_eq_self_iff.2 h, List.dropWhile_eq_nil_iff.2 h]

theorem first_digit (h : c.isDigit) : first c cs = number c cs := by
  unfold first
  rw [if_neg (isDigit_apart h).1, if_neg (isDigit_apart h).2.1, if_pos h]

theorem first_wordStart (h : isWordStart c) : first c cs = word c cs := by
  obtain ⟨hquote, hslash, hdigit, -⟩ := isWordStart_apart h
  unfold first
  rw [if_neg hquote, if_neg hslash, if_neg (by simp [hdigit]), if_pos h]

theorem wordKind_identifier (h : ∀ k : Keyword, k.word.toList ≠ text) : wordKind text = .identifier := by
  have hnone : Keyword.ofWord? (String.ofList text) = none := by
    refine List.find?_eq_none.2 fun k _ hk => h k ?_
    rw [beq_iff_eq] at hk
    rw [hk, String.toList_ofList]
  unfold wordKind
  rw [hnone]

end Piece

namespace Lexeme

variable {l : List Char} {k k' : Token.Kind}

/-- A lexeme on its own is one piece. -/
theorem first_eq (h : Lexeme l k) : ∃ c cs, l = c :: cs ∧ first c cs = (⟨.token k, l⟩, []) := by
  cases h with
  | mark m => cases m <;> exact ⟨_, _, rfl, by decide⟩
  | @string text hq =>
    refine ⟨'"', text ++ ['"'], rfl, ?_⟩
    change Piece.string (text ++ ['"']) = _
    unfold Piece.string
    rw [cutAtQuote?_eq hq []]
  | @whole _ x hne hd hx =>
    obtain ⟨c, cs, rfl⟩ := List.exists_cons_of_ne_nil hne
    refine ⟨c, cs, rfl, ?_⟩
    rw [first_digit (hd c List.mem_cons_self), number_whole fun d h => hd d (List.mem_cons_of_mem _ h),
      (Number.read_rounds _ _).unique hx]
  | @fraction whole fraction x hne hd hne' hd' hx =>
    obtain ⟨c, cs, rfl⟩ := List.exists_cons_of_ne_nil hne
    refine ⟨c, cs ++ '.' :: fraction, rfl, ?_⟩
    have hnum := number_fraction (c := c) (fun d h => hd d (List.mem_cons_of_mem _ h)) hne' hd' []
    simp only [List.append_nil, List.takeWhile_nil, List.dropWhile_nil] at hnum
    rw [first_digit (hd c List.mem_cons_self), hnum, (Number.read_rounds _ _).unique hx]
  | keyword k => cases k <;> exact ⟨_, _, rfl, by decide +kernel⟩
  | @identifier c cs hc hcs hk =>
    refine ⟨c, cs, rfl, ?_⟩
    rw [first_wordStart hc, word_whole hcs, wordKind_identifier hk]

theorem kind_unique (h : Lexeme l k) (h' : Lexeme l k') : k = k' := by
  obtain ⟨c, cs, rfl, hk⟩ := h.first_eq
  obtain ⟨c', cs', hl, hk'⟩ := h'.first_eq
  obtain ⟨rfl, rfl⟩ := List.cons.inj hl
  have hsame := hk.symm.trans hk'
  simpa using hsame

end Lexeme

namespace Piece

def Form.outcome : Form → Source.Outcome
  | .token _ => .token
  | .blank | .comment => .nothing
  | .stray => .error .unexpectedCharacter
  | .openString => .error .unterminatedString
  | .openComment => .error .unterminatedComment

/-- The piece is one that the text begins with. -/
structure Fits (text : List Char) (p : Piece) : Prop where
  called : p.form.outcome.CalledFor text
  longest : ∀ k, p.form = .token k → Source.Longest text p.text k

/-- A token fits if it is the longest lexeme, and what is skipped does not begin there. -/
theorem Fits.of_token {text l : List Char} {k : Token.Kind} (h : Source.Longest text l k) (hs : ¬Source.Skips text) :
    Fits text ⟨.token k, l⟩ := by
  refine ⟨⟨⟨l, k, h.isLexeme, h.begins⟩, hs⟩, ?_⟩
  rintro k' ⟨⟩
  exact h

variable {c : Char} {cs : List Char}

theorem length_le_takeWhile {p : Char → Bool} {l w : List Char} (h : ∀ d ∈ l, p d) (hl : l <+: w) :
    l.length ≤ (w.takeWhile p).length := by
  obtain ⟨rest, rfl⟩ := hl
  rw [List.takeWhile_append_of_pos h, List.length_append]
  exact Nat.le_add_right _ _

theorem string_fits (cs : List Char) : Fits ('"' :: cs) (string cs).1 := by
  unfold string
  cases hcut : cutAtQuote? cs with
  | none => exact ⟨⟨cs, rfl, cutAtQuote?_none hcut⟩, nofun⟩
  | some r =>
    obtain ⟨text, rest⟩ := r
    have hq := cutAtQuote?_some hcut
    obtain rfl := cutAtQuote?_append hcut
    refine .of_token ⟨.string hq, ⟨rest, by simp⟩, fun l k hl hp => ?_⟩ (Source.not_skips (by decide) (by decide) _)
    obtain ⟨d, ds, rfl⟩ := List.exists_cons_of_ne_nil hl.ne_nil
    obtain ⟨rfl, more, hmore⟩ := List.cons_prefix_cons.1 hp
    obtain ⟨text', hq', rfl⟩ := hl.of_quote
    -- Both texts are what stands before the first quote.
    have hsame : cutAtQuote? (text ++ '"' :: rest) = some (text', more) := by
      rw [← hmore, List.append_assoc]
      exact cutAtQuote?_eq hq' more
    rw [cutAtQuote?_eq hq] at hsame
    cases hsame
    simp

theorem cutFraction_digits (cs : List Char) (h : (cutFraction cs).1 ≠ []) :
    ∀ d ∈ (cutFraction cs).1, d.isDigit := by
  unfold cutFraction at h ⊢
  split
  · split
    · next hd =>
      intro e he
      rcases List.mem_cons.1 he with rfl | he
      · exact hd
      · exact List.mem_takeWhile_imp he
    · nofun
  · nofun

theorem number_lexeme (hc : c.isDigit) (cs : List Char) :
    ∃ k, (number c cs).1.form = .token k ∧ Lexeme (number c cs).1.text k := by
  have hwhole : ∀ d ∈ c :: cs.takeWhile Char.isDigit, d.isDigit := by
    intro d hd
    rcases List.mem_cons.1 hd with rfl | hd
    · exact hc
    · exact List.mem_takeWhile_imp hd
  unfold number
  cases hcut : cutFraction (cs.dropWhile Char.isDigit) with | mk fraction rest =>
  refine ⟨_, rfl, ?_⟩
  have hfraction := cutFraction_digits (cs.dropWhile Char.isDigit)
  rw [hcut] at hfraction
  cases fraction with
  | nil => exact .whole (List.cons_ne_nil _ _) hwhole (Number.read_rounds _ _)
  | cons d ds =>
    exact .fraction (List.cons_ne_nil _ _) hwhole (List.cons_ne_nil _ _) (hfraction (List.cons_ne_nil _ _))
      (Number.read_rounds _ _)

theorem whole_le_number (c : Char) (cs : List Char) :
    (cs.takeWhile Char.isDigit).length < (number c cs).1.text.length := by
  unfold number
  dsimp only
  split
  · exact Nat.lt_succ_self _
  · rw [List.length_append, List.length_cons]
    omega

/-- A number goes on as long as there are digits, and no lexeme beyond that. -/
theorem number_fits (hc : c.isDigit) (cs : List Char) : Fits (c :: cs) (number c cs).1 := by
  have hskips : ¬Source.Skips (c :: cs) := Source.not_skips (isDigit_apart hc).2.2 (isDigit_apart hc).2.1 cs
  obtain ⟨k, hform, hlex⟩ := number_lexeme hc cs
  have hpiece : (number c cs).1 = ⟨.token k, (number c cs).1.text⟩ := by rw [← hform]
  rw [hpiece]
  refine .of_token ⟨hlex, ⟨(number c cs).2, number_append c cs⟩, fun l k' hl hp => ?_⟩ hskips
  obtain ⟨d, ds, rfl⟩ := List.exists_cons_of_ne_nil hl.ne_nil
  obtain ⟨rfl, hds⟩ := List.cons_prefix_cons.1 hp
  rcases hl.of_digit hc with hall | ⟨whole, fraction, rfl, hw, hne, hf⟩
  · exact Nat.lt_of_le_of_lt (length_le_takeWhile hall hds) (whole_le_number d cs)
  · obtain ⟨more, rfl⟩ := hds
    rw [List.append_assoc, List.cons_append, number_fraction hw hne hf]
    simp

theorem wordKind_lexeme (hc : isWordStart c) (hcs : ∀ d ∈ cs, isWordPart d) :
    Lexeme (c :: cs) (wordKind (c :: cs)) := by
  unfold wordKind
  cases hk : Keyword.ofWord? (String.ofList (c :: cs)) with
  | some k =>
    have hword : k.word = String.ofList (c :: cs) := by simpa using List.find?_some hk
    have h := Lexeme.keyword k
    rw [hword, String.toList_ofList] at h
    exact h
  | none =>
    refine .identifier hc hcs fun k hw => ?_
    have hmem : k ∈ Keyword.all := by cases k <;> decide
    have := List.find?_eq_none.1 hk k hmem
    rw [← hw, String.ofList_toList] at this
    exact this (beq_self_eq_true _)

/-- A word goes on as long as there are letters and digits of words. -/
theorem word_fits (hc : isWordStart c) (cs : List Char) : Fits (c :: cs) (word c cs).1 := by
  have hskips : ¬Source.Skips (c :: cs) :=
    Source.not_skips (isWordStart_apart hc).2.2.2 (isWordStart_apart hc).2.1 cs
  refine .of_token ⟨wordKind_lexeme hc fun d hd => List.mem_takeWhile_imp hd, ⟨cs.dropWhile isWordPart, ?_⟩,
    fun l k hl hp => ?_⟩ hskips
  · simp
  · obtain ⟨d, ds, rfl⟩ := List.exists_cons_of_ne_nil hl.ne_nil
    obtain ⟨rfl, hds⟩ := List.cons_prefix_cons.1 hp
    exact Nat.succ_le_succ (length_le_takeWhile (hl.of_wordStart hc) hds)

theorem slash_fits (cs : List Char) : Fits ('/' :: cs) (slash cs).1 := by
  unfold slash
  split
  · next rest =>
    have hbody : '\n' ∉ rest.takeWhile (· != '\n') := fun h => by simpa using List.mem_takeWhile_imp h
    exact ⟨⟨_, .line hbody, rest.dropWhile (· != '\n'), by simp⟩, nofun⟩
  · next rest =>
    cases hcut : cutAtClose? rest with
    | none => exact ⟨⟨rest, rfl, cutAtClose?_none hcut⟩, nofun⟩
    | some r =>
      obtain ⟨before, after⟩ := r
      exact ⟨⟨_, .block (cutAtClose?_some hcut), after, by simp [← cutAtClose?_append hcut]⟩, nofun⟩
  · next hslash hstar =>
    refine .of_token ⟨.mark .slash, ⟨cs, rfl⟩, fun l k hl hp => ?_⟩ ?_
    · obtain ⟨d, ds, rfl⟩ := List.exists_cons_of_ne_nil hl.ne_nil
      obtain ⟨rfl, -⟩ := List.cons_prefix_cons.1 hp
      rcases hl.of_mark rfl with rfl | ⟨-, h⟩
      · exact Nat.le_refl 1
      · cases h
    · rintro (⟨d, hd, hb⟩ | ⟨more, hmore⟩ | ⟨more, hmore⟩)
      · cases hd
        exact absurd hb (by decide)
      · exact hslash more (List.cons.inj hmore).2.symm
      · exact hstar more (List.cons.inj hmore).2.symm

theorem mark_fits {m : Mark} (hm : Mark.ofChar? c = some m) (hs : c ≠ '/') (cs : List Char) :
    Fits (c :: cs) (mark m c cs).1 := by
  obtain ⟨-, -, -, hblank⟩ := Mark.ofChar?_apart hm
  have hskips := Source.not_skips hblank hs cs
  unfold mark
  split
  · next longer rest hlonger =>
    have hlex := Lexeme.mark longer
    rw [Mark.text_of_withEqual? hm hlonger] at hlex
    refine .of_token ⟨hlex, ⟨rest, rfl⟩, fun l k hl hp => ?_⟩ hskips
    obtain ⟨d, ds, rfl⟩ := List.exists_cons_of_ne_nil hl.ne_nil
    obtain ⟨rfl, -⟩ := List.cons_prefix_cons.1 hp
    rcases hl.of_mark hm with rfl | ⟨rfl, -⟩
    · exact Nat.le_succ 1
    · exact Nat.le_refl 2
  · next hnone =>
    have hlex := Lexeme.mark m
    rw [Mark.text_of_ofChar? hm] at hlex
    refine .of_token ⟨hlex, ⟨_, rfl⟩, fun l k hl hp => ?_⟩ hskips
    obtain ⟨d, ds, rfl⟩ := List.exists_cons_of_ne_nil hl.ne_nil
    obtain ⟨rfl, hds⟩ := List.cons_prefix_cons.1 hp
    rcases hl.of_mark hm with rfl | ⟨rfl, h⟩
    · exact Nat.le_refl 1
    · obtain ⟨longer, hlonger⟩ := Option.isSome_iff_exists.1 h
      obtain ⟨more, rfl⟩ := hds
      exact absurd rfl (hnone longer more hlonger)

/-- The first piece of a text is the one that the text calls for, by cases on its first character. -/
theorem first_fits (c : Char) (cs : List Char) : Fits (c :: cs) (first c cs).1 := by
  unfold first
  split
  · next h => rw [h]; exact string_fits cs
  next hquote =>
  split
  · next h => rw [h]; exact slash_fits cs
  next hslash =>
  split
  · next h => exact number_fits h cs
  next hdigit =>
  split
  · next h => exact word_fits h cs
  next hword =>
  split
  · next h => exact ⟨⟨[c], .blank h, cs, rfl⟩, nofun⟩
  next hblank =>
  split
  · next m hm => exact mark_fits hm hslash cs
  next hmark =>
  refine ⟨?_, nofun⟩
  rintro l (⟨k, hl⟩ | hl) hhead
  · obtain ⟨d, ds, rfl⟩ := List.exists_cons_of_ne_nil hl.ne_nil
    cases hhead
    rcases hl.begins with h | h | h | h
    · exact hquote h
    · exact hdigit h
    · exact hword h
    · rw [hmark] at h
      cases h
  · cases hl with
    | blank h =>
      cases hhead
      exact hblank h
    | line _ | block _ =>
      cases hhead
      exact hslash rfl

end Piece

namespace Source

def Outcome.of : Option Item → Outcome
  | some (.token _) => token
  | none => nothing
  | some (.error e) => error e.cause

/-- Where a piece of a source begins, with what comes of it. -/
structure Place where
  /-- The source before it. -/
  before : List Char
  /-- The source from there on. -/
  text : List Char
  yields : Option Item

/-- Where pieces begin, the first of them on a line. -/
def Place.ofPieces (before : List Char) (line : Nat) : List Piece → List Place
  | [] => []
  | p :: ps => ⟨before, (p :: ps).flatMap Piece.text, p.item? line⟩ ::
      ofPieces (before ++ p.text) (line + p.newlines) ps

def places (source : String) : List Place := Place.ofPieces [] 1 (Piece.ofSource source.toList)

/-- What comes of a place is what its text calls for. -/
structure Place.Munches (place : Place) : Prop where
  outcome : ∀ o, Outcome.of place.yields = o ↔ o.CalledFor place.text
  token : ∀ t, place.yields = some (.token t) → Longest place.text t.lexeme.toList t.kind
  kind : ∀ t k, place.yields = some (.token t) → Lexeme t.lexeme.toList k → k = t.kind

theorem outcome_of_item? (line : Nat) (p : Piece) : Outcome.of (p.item? line) = p.form.outcome := by
  unfold Piece.item?
  cases p.form <;> rfl

theorem Place.munches_of_fits {p : Piece} {text : List Char} (h : p.Fits text) (before : List Char) (line : Nat) :
    Place.Munches ⟨before, text, p.item? line⟩ := by
  have htoken : ∀ t, p.item? line = some (.token t) → Longest text t.lexeme.toList t.kind := by
    intro t ht
    unfold Piece.item? at ht
    split at ht
    · next kind hform =>
      cases ht
      rw [String.toList_ofList]
      exact h.longest kind hform
    all_goals cases ht
  refine ⟨fun o => ?_, htoken, fun t k ht hk => hk.kind_unique (htoken t ht).isLexeme⟩
  rw [outcome_of_item?]
  constructor
  · rintro rfl
    exact h.called
  · exact h.called.unique

/-- From each place on the source goes on as the text there, by induction on the pieces. -/
theorem Place.munches_ofPieces (before cs : List Char) (line : Nat) :
    ∀ place ∈ Place.ofPieces before line (Piece.ofSource cs),
      place.before ++ place.text = before ++ cs ∧ place.Munches := by
  fun_induction Piece.ofSource cs generalizing before line with
  | case1 =>
    intro place hplace
    cases hplace
  | case2 c cs ih =>
    have htext : ((first c cs).1 :: Piece.ofSource (first c cs).2).flatMap Piece.text = c :: cs := by
      rw [List.flatMap_cons, flatten_ofSource, first_append]
    intro place hplace
    rw [ofPieces, htext] at hplace
    rcases List.mem_cons.1 hplace with rfl | hplace
    · exact ⟨rfl, munches_of_fits (first_fits c cs) before line⟩
    · have := ih _ _ place hplace
      rwa [List.append_assoc, first_append] at this

theorem Place.yields_ofPieces (before : List Char) (line : Nat) (ps : List Piece) :
    (Place.ofPieces before line ps).filterMap Place.yields = Item.before line ps := by
  induction ps generalizing before line with
  | nil => rfl
  | cons p ps ih =>
    rw [ofPieces, List.filterMap_cons, Item.before, ih]
    cases p.item? line <;> rfl

/-- A source yields what comes of its places one after another, and then its end. Each of them is part of the source and
yields what its text calls for: the longest lexeme there as a token of the kind that this lexeme determines, nothing
where something is skipped, and each error exactly where it is the case. -/
theorem maximal_munch (source : String) :
    Item.ofSource source =
      (places source).filterMap Place.yields ++ [.token ⟨.finish, "", 1 + newlines source⟩] ∧
    ∀ place ∈ places source, place.before ++ place.text = source.toList ∧ place.Munches := by
  constructor
  · rw [ofSource_eq]
    unfold places items
    rw [Place.yields_ofPieces]
  · exact Place.munches_ofPieces [] source.toList 1

end Source

end LoxLang
