import Mathlib.Data.List.TakeWhile
import LoxLang.Token.Scanner

namespace LoxLang

namespace Text

/-- The bytes of a character. -/
def encoded (c : Char) : List Char := (String.utf8EncodeChar c).map Char.ofUInt8

/-- The bytes of characters. -/
def encode (cs : List Char) : List Char := cs.flatMap encoded

theorem toNat_ofUInt8 (b : UInt8) : (Char.ofUInt8 b).toNat = b.toNat := UInt8.toNat_toUInt32 b

/-- A character of ASCII is its own byte. -/
theorem encoded_of_lt {c : Char} (h : c.toNat < 128) : encoded c = [c] := by
  have hv : c.val.toNat ≤ 127 := by
    change c.toNat ≤ 127
    omega
  have hb : Char.ofUInt8 (UInt8.ofNat c.toNat) = c := by
    rw [← Char.toNat_inj, toNat_ofUInt8, UInt8.toNat_ofNat']
    omega
  unfold encoded String.utf8EncodeChar
  simp only [if_pos hv, List.map_cons, List.map_nil]
  exact congrArg ([·]) hb

/-- No byte of a character beyond ASCII looks like a character of ASCII. -/
theorem le_of_mem_encoded {c d : Char} (h : 128 ≤ c.toNat) (hd : d ∈ encoded c) : 128 ≤ d.toNat := by
  obtain ⟨b, hb, rfl⟩ := List.mem_map.1 hd
  have hv : ¬c.val.toNat ≤ 127 := by
    change ¬c.toNat ≤ 127
    omega
  rw [toNat_ofUInt8]
  unfold String.utf8EncodeChar at hb
  simp only [if_neg hv] at hb
  split at hb
  · simp only [List.mem_cons, List.not_mem_nil, or_false] at hb
    rcases hb with rfl | rfl <;> rw [UInt8.toNat_ofNat'] <;> omega
  split at hb
  · simp only [List.mem_cons, List.not_mem_nil, or_false] at hb
    rcases hb with rfl | rfl | rfl <;> rw [UInt8.toNat_ofNat'] <;> omega
  · simp only [List.mem_cons, List.not_mem_nil, or_false] at hb
    rcases hb with rfl | rfl | rfl | rfl <;> rw [UInt8.toNat_ofNat'] <;> omega

theorem bytes_eq (text : String) : bytes text = encode text.toList := by
  unfold bytes encode encoded
  rw [← String.utf8Encode_toList]
  simp [List.utf8Encode, List.map_flatMap]

theorem length_bytes (text : String) : (bytes text).length = text.utf8ByteSize := by
  simp [bytes]

@[simp]
theorem encode_nil : encode [] = [] := rfl

theorem encode_append (cs ds : List Char) : encode (cs ++ ds) = encode cs ++ encode ds := List.flatMap_append

theorem encode_cons (c : Char) (cs : List Char) : encode (c :: cs) = encoded c ++ encode cs := List.flatMap_cons

theorem encode_cons_of_lt {c : Char} (h : c.toNat < 128) (cs : List Char) : encode (c :: cs) = c :: encode cs := by
  rw [encode_cons, encoded_of_lt h]
  rfl

theorem encoded_ne_nil (c : Char) : encoded c ≠ [] := by
  simp [encoded]

/-- Positions count bytes, as many for a character as its encoding has. -/
theorem length_encoded (c : Char) : (encoded c).length = c.utf8Size := by
  simp [encoded]

theorem length_encode (cs : List Char) : (encode cs).length = (String.ofList cs).utf8ByteSize := by
  rw [← length_bytes, bytes_eq, String.toList_ofList]

/-- The property is that of all characters beyond ASCII or of none. -/
def Bytewise (p : Char → Bool) : Prop := ∀ c d, 128 ≤ c.toNat → 128 ≤ d.toNat → p c = p d

variable {p : Char → Bool}

/-- What can be told of a character can be told of any of its bytes, if it does not tell one character beyond ASCII from
another. -/
theorem Bytewise.encoded (hp : Bytewise p) {c d : Char} (hd : d ∈ encoded c) : p d = p c := by
  rcases Nat.lt_or_ge c.toNat 128 with h | h
  · rw [encoded_of_lt h, List.mem_singleton] at hd
    rw [hd]
  · exact hp d c (le_of_mem_encoded h hd) h

/-- So the scanner stops between characters, though it goes byte by byte. -/
theorem Bytewise.takeWhile (hp : Bytewise p) (cs : List Char) :
    (encode cs).takeWhile p = encode (cs.takeWhile p) := by
  induction cs with
  | nil => rfl
  | cons c cs ih =>
    rw [encode_cons, List.takeWhile_cons]
    split
    · next hc =>
      rw [List.takeWhile_append_of_pos fun d hd => (hp.encoded hd).trans hc, ih, encode_cons]
    · next hc =>
      obtain ⟨d, ds, hds⟩ := List.exists_cons_of_ne_nil (encoded_ne_nil c)
      have hd : p d = p c := hp.encoded (by rw [hds]; exact List.mem_cons_self)
      rw [hds, List.cons_append, List.takeWhile_cons, if_neg (by rw [hd]; exact hc)]
      rfl

theorem Bytewise.any_head (hp : Bytewise p) (cs : List Char) : (encode cs).head?.any p = cs.head?.any p := by
  cases cs with
  | nil => rfl
  | cons c cs =>
    obtain ⟨d, ds, hds⟩ := List.exists_cons_of_ne_nil (encoded_ne_nil c)
    rw [encode_cons, hds]
    exact hp.encoded (by rw [hds]; exact List.mem_cons_self)

theorem bytewise_of_lt {c : Char} (h : c.toNat < 128) : Bytewise (· == c) := by
  have hne : ∀ d : Char, 128 ≤ d.toNat → (d == c) = false := by
    intro d hd
    rw [beq_eq_false_iff_ne]
    rintro rfl
    omega
  exact fun d d' hd hd' => (hne d hd).trans (hne d' hd').symm

theorem Bytewise.not (hp : Bytewise p) : Bytewise (!p ·) := fun c d hc hd => congrArg (!·) (hp c d hc hd)

theorem head?_encode {c : Char} (h : c.toNat < 128) (cs : List Char) :
    (encode cs).head? = some c ↔ cs.head? = some c := by
  have hany : ∀ ds : List Char, ds.head? = some c ↔ ds.head?.any (· == c) = true := by
    intro ds
    cases ds <;> simp
  rw [hany, hany, (bytewise_of_lt h).any_head]

/-- Newlines are counted byte by byte as they are character by character. -/
theorem count_encode {c : Char} (h : c.toNat < 128) (cs : List Char) : (encode cs).count c = cs.count c := by
  induction cs with
  | nil => rfl
  | cons d cs ih =>
    rw [encode_cons, List.count_append, ih, List.count_cons, Nat.add_comm]
    congr 1
    split
    · next hd =>
      rw [beq_iff_eq.1 hd, encoded_of_lt h]
      exact List.count_singleton_self
    · next hd =>
      refine List.count_eq_zero.2 fun hc => hd ?_
      rw [← (bytewise_of_lt h).encoded hc]
      exact beq_self_eq_true c

/-- Of a property of ASCII characters alone, bytes tell as much as characters. -/
theorem bytewise_of_ascii (h : ∀ c, 128 ≤ c.toNat → p c = false) : Bytewise p :=
  fun c d hc hd => (h c hc).trans (h d hd).symm

theorem lt_of_ascii (h : ∀ c, 128 ≤ c.toNat → p c = false) {c : Char} (hc : p c) : c.toNat < 128 := by
  refine Nat.lt_of_not_le fun hge => ?_
  rw [h c hge] at hc
  cases hc

theorem isDigit_of_le (c : Char) (h : 128 ≤ c.toNat) : c.isDigit = false := by
  rw [Bool.eq_false_iff]
  intro hd
  have : c.toNat ≤ 57 := (Char.isDigit_iff_toNat.1 hd).2
  omega

theorem isAlpha_of_le (c : Char) (h : 128 ≤ c.toNat) : c.isAlpha = false := by
  have hc : 128 ≤ c.val.toNat := h
  rw [Bool.eq_false_iff]
  intro ha
  delta Char.isAlpha Char.isUpper Char.isLower at ha
  simp [UInt32.le_iff_toNat_le] at ha
  omega

theorem ne_of_le {c d : Char} (h : 128 ≤ c.toNat) (hd : d.toNat < 128) : c ≠ d := by
  rintro rfl
  omega

theorem isWordStart_of_le (c : Char) (h : 128 ≤ c.toNat) : Piece.isWordStart c = false := by
  have hne : c ≠ '_' := ne_of_le h (by decide)
  simp [Piece.isWordStart, isAlpha_of_le c h, hne]

/-- Words have letters and digits of ASCII only. -/
theorem isWordPart_of_le (c : Char) (h : 128 ≤ c.toNat) : Piece.isWordPart c = false := by
  have hne : c ≠ '_' := ne_of_le h (by decide)
  simp [Piece.isWordPart, Char.isAlphanum, isAlpha_of_le c h, isDigit_of_le c h, hne]

theorem isBlank_of_le (c : Char) (h : 128 ≤ c.toNat) : Piece.isBlank c = false := by
  have hne : ∀ d : Char, d.toNat < 128 → c ≠ d := fun d hd => ne_of_le h hd
  simp [Piece.isBlank, hne]

theorem ofChar?_of_le (c : Char) (h : 128 ≤ c.toNat) : Mark.ofChar? c = none := by
  cases hm : Mark.ofChar? c with
  | none => rfl
  | some m =>
    unfold Mark.ofChar? at hm
    split at hm <;> first | (exact absurd h (by decide)) | cases hm

theorem bytewise_isDigit : Bytewise Char.isDigit := bytewise_of_ascii isDigit_of_le

theorem bytewise_isWordPart : Bytewise Piece.isWordPart := bytewise_of_ascii isWordPart_of_le

theorem find?_close_of_cons {c : Char} {cs : List Char} (h : ∀ rest, c = '*' → cs = '/' :: rest → False) :
    find? ['*', '/'] (c :: cs) = (find? ['*', '/'] cs).map (· + 1) := by
  rw [find?, if_neg]
  rw [List.isPrefixOf_iff_prefix]
  rintro ⟨rest, hrest⟩
  obtain ⟨rfl, rfl⟩ := List.cons.inj hrest
  exact h rest rfl rfl

theorem find?_close_append {ds : List Char} (h : ∀ d ∈ ds, d ≠ '*') (cs : List Char) :
    find? ['*', '/'] (ds ++ cs) = (find? ['*', '/'] cs).map (· + ds.length) := by
  induction ds with
  | nil => simp
  | cons d ds ih =>
    rw [List.cons_append, find?_close_of_cons fun _ hd => absurd hd (h d List.mem_cons_self),
      ih fun e he => h e (List.mem_cons_of_mem _ he), Option.map_map]
    rfl

/-- The first end of a block comment is where it is among the characters. -/
theorem find?_close_encode (cs : List Char) :
    find? ['*', '/'] (encode cs) = (Piece.cutAtClose? cs).map fun cut => (encode cut.1).length := by
  fun_induction Piece.cutAtClose? cs with
  | case1 => rfl
  | case2 rest =>
    rw [encode_cons_of_lt (by decide), encode_cons_of_lt (by decide), find?, if_pos (by simp)]
    rfl
  | case3 c cs hne ih =>
    have hfind : find? ['*', '/'] (encode (c :: cs)) =
        (find? ['*', '/'] (encode cs)).map (· + (encoded c).length) := by
      by_cases hc : c = '*'
      · subst hc
        rw [encode_cons_of_lt (by decide), encoded_of_lt (by decide), find?_close_of_cons]
        · rfl
        · intro rest _ hrest
          have hhead : cs.head? = some '/' := by
            rw [← head?_encode (by decide), hrest]
            rfl
          obtain ⟨tail, rfl⟩ := List.head?_eq_some_iff.1 hhead
          exact hne tail rfl rfl
      · rw [encode_cons, find?_close_append]
        intro d hd
        have := (bytewise_of_lt (c := '*') (by decide)).encoded hd
        simpa [hc] using this
    rw [hfind, ih, Option.map_map, Option.map_map]
    congr 1
    funext cut
    simp [encode_cons, Nat.add_comm]

/-- A part of a text is found by the bytes before it. -/
theorem slice?_append (before part after : String) :
    slice? (before ++ part ++ after) before.utf8ByteSize (before.utf8ByteSize + part.utf8ByteSize) = some part := by
  have hfirst : String.Pos.Raw.IsValid (before ++ part ++ after) ⟨before.utf8ByteSize⟩ :=
    String.Pos.Raw.isValid_iff_exists_append.2 ⟨before, part ++ after, String.append_assoc, rfl⟩
  have hlast : String.Pos.Raw.IsValid (before ++ part ++ after) ⟨before.utf8ByteSize + part.utf8ByteSize⟩ := by
    rw [← String.utf8ByteSize_append]
    exact String.Pos.Raw.isValid_iff_exists_append.2 ⟨before ++ part, after, rfl, rfl⟩
  have hextract : (before.toByteArray ++ (part.toByteArray ++ after.toByteArray)).extract
      (before.toByteArray.size + 0) (before.toByteArray.size + part.toByteArray.size) = _ :=
    ByteArray.extract_append_size_add
  rw [ByteArray.extract_append_eq_left rfl] at hextract
  unfold slice?
  rw [dif_pos ⟨Nat.le_add_right _ _, hfirst, hlast⟩, Option.some_inj, ← String.toByteArray_inj,
    String.toByteArray_extract, String.toByteArray_append, String.toByteArray_append, ByteArray.append_assoc]
  exact hextract

theorem slice?_eq {text : String} (before part after : List Char) (h : text.toList = before ++ part ++ after) :
    slice? text (encode before).length ((encode before).length + (encode part).length) =
      some (String.ofList part) := by
  have htext : text = String.ofList before ++ String.ofList part ++ String.ofList after := by
    rw [← String.ofList_append, ← String.ofList_append, ← h, String.ofList_toList]
  rw [length_encode, length_encode, htext]
  exact slice?_append _ _ _

/-- No part of a text begins or ends inside a character. -/
example : slice? "aé" 1 3 = some "é" ∧ slice? "aé" 1 2 = none ∧ slice? "aé" 2 3 = none := by decide +kernel

end Text

end LoxLang
