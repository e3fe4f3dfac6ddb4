import LoxLang.Proofs.Number.Texts
import LoxLang.Proofs.Token.Items
import LoxLang.Proofs.Token.Munch
import LoxLang.Tree.Printer
import LoxLang.Value

namespace LoxLang

namespace Number

/-- Up to the end of the binade in which steps become wider than one, every natural number is the value of a
magnitude. -/
theorem exists_magnitude {n : Nat} (hn : n ≤ 2 ^ 53) : ∃ i ≤ infinite, value i = n := by
  have hscale : (scale : ℚ) ≠ 0 := by exact_mod_cast scale_pos.ne'
  -- A number between two powers of two, of which the greater is at most the end of the binade.
  have hpower : n = 0 ∨ ∃ l ≤ 52, 2 ^ l ≤ n ∧ n ≤ 2 ^ (l + 1) := by
    by_cases hzero : n = 0
    · exact .inl hzero
    · by_cases htop : n = 2 ^ 53
      · exact .inr ⟨52, le_rfl, by rw [htop]; decide, htop.le⟩
      · have hlog : n.log2 < 53 := (Nat.log2_lt hzero).2 (lt_of_le_of_ne hn htop)
        exact .inr ⟨n.log2, Nat.le_of_lt_succ hlog, Nat.log2_self_le hzero, Nat.lt_log2_self.le⟩
  obtain rfl | ⟨l, hl, hlow, hhigh⟩ := hpower
  · exact ⟨0, Nat.zero_le _, by rw [value_zero, Nat.cast_zero]⟩
  · have hsplit : 2 ^ 52 = 2 ^ l * 2 ^ (52 - l) := by rw [← Nat.pow_add, Nat.add_sub_cancel' hl]
    have hr : n * 2 ^ (52 - l) ≤ 2 * binade := by
      calc n * 2 ^ (52 - l) ≤ 2 ^ (l + 1) * 2 ^ (52 - l) := Nat.mul_le_mul_right _ hhigh
        _ = 2 * binade := by rw [Nat.pow_succ, Nat.mul_right_comm, ← hsplit]; rfl
    have hr' : binade ≤ n * 2 ^ (52 - l) := by
      calc binade = 2 ^ l * 2 ^ (52 - l) := hsplit
        _ ≤ n * 2 ^ (52 - l) := Nat.mul_le_mul_right _ hlow
    refine ⟨(1022 + l) * binade + n * 2 ^ (52 - l), ?_, ?_⟩
    · clear hsplit hr'
      unfold infinite
      generalize n * 2 ^ (52 - l) = r at hr ⊢
      generalize binade = b at hr ⊢
      have hbinades : (1022 + l) * b ≤ 1074 * b := Nat.mul_le_mul_right b (by omega)
      omega
    · have hunits : units ((1022 + l) * binade + n * 2 ^ (52 - l)) = n * scale := by
        have hexponent : 52 - l + (1022 + l) = 1074 := by omega
        have htwo : 2 ^ (52 - l) = twoPow (52 - l) := rfl
        rw [units_step (.inr hr') hr, Nat.mul_assoc, htwo, ← twoPow_add, hexponent, scale]
      rw [value, hunits, Nat.cast_mul, mul_div_cancel_right₀ _ hscale]

/-- A natural number that reads as another that is not too great is that number. -/
theorem eq_of_reads {d : Decimal} {i m n : Nat} (hn : n < 2 ^ 53) (hi : value i = n) (hd : d.value = m)
    (h : d.magnitude = i) : m = n := by
  have hnearest : Nearest m i := by
    have := d.magnitude_nearest
    rwa [hd, h] at this
  by_cases hm : m ≤ 2 ^ 53
  · obtain ⟨j, hj, hvalue⟩ := exists_magnitude hm
    obtain rfl : i = j := hnearest.unique (hvalue ▸ nearest_value hj)
    exact_mod_cast hvalue.symm.trans hi
  · -- The end of the binade would be nearer.
    obtain ⟨j, hj, hvalue⟩ := exists_magnitude (le_refl (2 ^ 53))
    have hle := hnearest.nearest j hj
    have hm' : ((2 ^ 53 : Nat) : ℚ) < m := by exact_mod_cast Nat.lt_of_not_le hm
    have hn' : (n : ℚ) < (2 ^ 53 : Nat) := by exact_mod_cast hn
    rw [hi, hvalue, abs_of_neg (by linarith), abs_of_neg (by linarith)] at hle
    linarith

/-- A decimal on a grid of whole numbers is one. -/
theorem Decimal.value_of_nonneg {d : Decimal} (h : 0 ≤ d.exponent) :
    d.value = (d.digits * tenPow d.exponent.toNat : Nat) := by
  have hnegated : (-d.exponent).toNat = 0 := by omega
  simp [value, numerator, denominator, hnegated, tenPow]

/-- What is found on a grid has the exponent of that grid, even if its digits end in zeros. -/
theorem onGrid?_exponent {tie : Tie} {i : Nat} {p : Int} {d : Decimal} (h : onGrid? tie i p = some d) :
    d.exponent = p := by
  unfold onGrid? at h
  cases hlow : Decimal.magnitude ⟨floorAt i p, p⟩ == i <;> cases hhigh : Decimal.magnitude ⟨floorAt i p + 1, p⟩ == i
  all_goals
    simp only [hlow, hhigh, Bool.and_true, Bool.and_false, Bool.false_eq_true, if_true, if_false] at h
  case false.false => cases h
  all_goals rw [← Option.some.inj h]

theorem log2_mul_twoPow {n : Nat} (hn : n ≠ 0) (k : Nat) : (n * twoPow k).log2 = n.log2 + k := by
  rw [Nat.log2_eq_iff (Nat.mul_ne_zero hn (twoPow_pos k).ne')]
  constructor
  · rw [Nat.pow_add]
    exact Nat.mul_le_mul_right _ (Nat.log2_self_le hn)
  · rw [Nat.add_right_comm, Nat.pow_add]
    exact Nat.mul_lt_mul_of_pos_right Nat.lt_log2_self (twoPow_pos k)

/-- The grid of whole numbers is among those that are tried for a whole number that is not too great. -/
theorem topGrid_bounds {i n : Nat} (hn : n < 2 ^ 53) (hpos : 0 < n) (hi : units i = n * scale) :
    0 ≤ topGrid i ∧ topGrid i < 20 := by
  have hlog : (units i).log2 = n.log2 + 1074 := by
    rw [hi, scale, log2_mul_twoPow hpos.ne']
  have hlt : n.log2 < 53 := (Nat.log2_lt hpos.ne').2 hn
  unfold topGrid
  rw [hlog]
  clear hi hlog
  omega

/-- On the grid of whole numbers a whole number has itself. -/
theorem onGrid?_whole (tie : Tie) {i n : Nat} (hmax : i ≤ infinite) (hi : units i = n * scale) :
    (onGrid? tie i 0).isSome := by
  have hscale : (scale : ℚ) ≠ 0 := by exact_mod_cast scale_pos.ne'
  have hfloor : floorAt i 0 = n := by
    have hone : tenPow 0 = 1 := rfl
    simp only [floorAt, hi, neg_zero, Int.toNat_zero, hone, Nat.mul_one]
    exact Nat.mul_div_cancel n scale_pos
  have hreads : Decimal.magnitude ⟨floorAt i 0, 0⟩ = i := by
    have hvalue : value i = n := by rw [value, hi, Nat.cast_mul, mul_div_cancel_right₀ _ hscale]
    refine Decimal.magnitude_of_value hmax ?_
    rw [Decimal.value_of_nonneg (le_refl 0), hfloor, hvalue]
    simp [tenPow]
  unfold onGrid?
  simp only [hreads, beq_self_eq_true, Bool.true_and, if_true]
  split <;> rfl

/-- A whole number that is not too great is itself its shortest decimal, but for the zeros at its end. -/
theorem shortest_whole (tie : Tie) {i n : Nat} (hmax : i ≤ infinite) (hn : n < 2 ^ 53) (hi : units i = n * scale) :
    0 ≤ (shortest tie i).exponent ∧ (shortest tie i).digits * tenPow (shortest tie i).exponent.toNat = n := by
  have hscale : (scale : ℚ) ≠ 0 := by exact_mod_cast scale_pos.ne'
  have hvalue : value i = n := by rw [value, hi, Nat.cast_mul, mul_div_cancel_right₀ _ hscale]
  have hexponent : 0 ≤ (shortest tie i).exponent := by
    unfold shortest
    split
    · exact le_refl 0
    · next hne =>
      have hpos : 0 < n := by
        refine Nat.pos_of_ne_zero fun hzero => hne ?_
        have hunits : units 0 = 0 := by decide
        rw [hzero, Nat.zero_mul, ← hunits] at hi
        exact units_strictMono.injective hi
      obtain ⟨hlow, hhigh⟩ := topGrid_bounds hn hpos hi
      have hhit : onGrid? tie i (topGrid i - (topGrid i).toNat) ≠ none := by
        rw [Int.toNat_of_nonneg hlow, Int.sub_self]
        exact Option.isSome_iff_ne_none.1 (onGrid?_whole tie hmax hi)
      have htried : (topGrid i).toNat ∈ List.range 20 := by
        rw [List.mem_range]
        omega
      cases hfound : (List.range 20).findSome? fun (n : Nat) => onGrid? tie i (topGrid i - n) with
      | none => exact absurd (List.findSome?_eq_none_iff.1 hfound _ htried) hhit
      | some d =>
        obtain ⟨before, k, after, hrange, hd, hnone⟩ := List.findSome?_eq_some_iff.1 hfound
        -- What is tried before a hit are the coarser grids.
        have hk : k ≤ (topGrid i).toNat := by
          by_contra hlt
          have hlength : k = before.length := by
            have hget : (List.range 20)[before.length]? = some k := by rw [hrange]; simp
            rw [List.getElem?_eq_some_iff] at hget
            obtain ⟨hlen, hget⟩ := hget
            rw [List.getElem_range] at hget
            exact hget.symm
          have hmem : (topGrid i).toNat ∈ before := by
            have hget : (List.range 20)[(topGrid i).toNat]? = some (topGrid i).toNat := by
              rw [List.getElem?_range (List.mem_range.1 htried)]
            rw [hrange, List.getElem?_append_left (by omega)] at hget
            exact List.mem_of_getElem? hget
          exact hhit (hnone _ hmem)
        change 0 ≤ d.exponent
        rw [onGrid?_exponent hd]
        omega
  exact ⟨hexponent, eq_of_reads hn hvalue (Decimal.value_of_nonneg hexponent) (shortest_reads tie hmax)⟩

/-- A power of ten puts zeros behind the digits. -/
theorem digitsOf_mul_tenPow {n : Nat} (hn : 0 < n) (k : Nat) :
    digitsOf (n * tenPow k) = digitsOf n ++ List.replicate k '0' := by
  induction k with
  | zero => simp [tenPow]
  | succ k ih =>
    have hpos : 0 < n * tenPow k := Nat.mul_pos hn (tenPow_pos k)
    have hshift : n * tenPow (k + 1) = 10 * (n * tenPow k) + 0 := by
      rw [show tenPow (k + 1) = tenPow k * 10 from rfl]
      ring
    rw [hshift, digitsOf, ← Nat.toDigits_append_toDigits (by decide) hpos (by decide), List.replicate_succ']
    rw [show Nat.toDigits 10 (n * tenPow k) = _ from ih, List.append_assoc]
    rfl

/-- A whole number has no bits below its point. -/
theorem units_of_isWhole {x : Number} (h : x.isWhole = true) : units x.magnitude = x.wholePart * scale := by
  simp only [isWhole, Bool.and_eq_true, beq_iff_eq] at h
  exact (Nat.div_mul_cancel (Nat.dvd_of_mod_eq_zero h.2)).symm

/-- A whole number that is not too great is shown in full, without a point. -/
theorem plainText_whole {x : Number} (h : x.isWhole = true) (hlt : x.wholePart < 2 ^ 53) :
    x.plainText = digitsOf x.wholePart := by
  have hmax : x.magnitude ≤ infinite := by
    simp only [isWhole, Bool.and_eq_true, isFinite, decide_eq_true_eq] at h
    exact h.1.le
  obtain ⟨hexponent, hdigits⟩ := shortest_whole .upper hmax hlt (units_of_isWhole h)
  unfold plainText
  by_cases hzero : x.magnitude = 0
  · have hunits : units 0 = 0 := by decide
    simp [shortest, hzero, Decimal.positional, wholePart, hunits]
  · have hpos : 0 < (shortest .upper x.magnitude).digits := by
      refine Nat.pos_of_ne_zero fun hnone => hzero ?_
      rw [hnone, Nat.zero_mul] at hdigits
      have hunits := units_of_isWhole h
      have hunits0 : units 0 = 0 := by decide
      rw [← hdigits, Nat.zero_mul, ← hunits0] at hunits
      exact units_strictMono.injective hunits
    rw [← hdigits, digitsOf_mul_tenPow hpos, Decimal.positional, if_pos hexponent]

/-- Below the limit for whole numbers they are shown as integers, and all else by the shortest digits that read
back. -/
theorem display_eq (x : Number) :
    x.display =
      if x.isWhole && decide (x.wholePart < 10 ^ 15) then x.signed (digitsOf x.wholePart)
      else if x.isFinite then x.signed x.plainText
      else x.boundless := by
  split
  · next h =>
    rw [Bool.and_eq_true, decide_eq_true_eq] at h
    have hfinite : x.isFinite = true := by
      have := h.1
      simp only [isWhole, Bool.and_eq_true] at this
      exact this.1
    rw [display, if_pos hfinite, plainText_whole h.1 (Nat.lt_trans h.2 (by decide))]
  · rfl

/-- The text of a finite number without a sign, as a value, is a lexeme of that number. -/
theorem display_lexeme {x : Number} (hfinite : x.isFinite = true) (hsign : x.isNegative = false) :
    Lexeme x.display (.number x) := by
  simpa [display, hfinite, signed, hsign] using plainText_lexeme hfinite hsign

/-- So is its text as the literal of a token, which has a point in any case. -/
theorem tokenText_lexeme {x : Number} (hfinite : x.isFinite = true) (hsign : x.isNegative = false) :
    Lexeme x.tokenText (.number x) := by
  unfold tokenText
  split
  · next h =>
    rw [Bool.and_eq_true] at h
    have hlexeme := wholeText_lexeme h.1 hsign
    split
    · exact hlexeme
    · simpa [signed, hsign] using hlexeme
  · exact display_lexeme hfinite hsign

/-- Digits, and maybe a point with digits on both sides. -/
inductive Plain : List Char → Prop
  | whole {digits : List Char} (hne : digits ≠ []) (hd : ∀ d ∈ digits, d.isDigit) : Plain digits
  | fraction {whole fraction : List Char} (hne : whole ≠ []) (hd : ∀ d ∈ whole, d.isDigit) (hne' : fraction ≠ [])
    (hd' : ∀ d ∈ fraction, d.isDigit) : Plain (whole ++ '.' :: fraction)

theorem Plain.not_newline {text : List Char} (h : Plain text) : '\n' ∉ text := by
  have hdigits : ∀ {digits : List Char}, (∀ d ∈ digits, d.isDigit) → '\n' ∉ digits :=
    fun hd hmem => absurd (hd _ hmem) (by decide)
  cases h with
  | whole _ hd => exact hdigits hd
  | fraction _ hd _ hd' =>
    rw [List.mem_append, List.mem_cons]
    rintro (h | h | h)
    · exact hdigits hd h
    · cases h
    · exact hdigits hd' h

/-- The scanner takes a number only in plain digits: without an exponent, a sign or a bare point. -/
theorem plain_of_lexeme {text : List Char} {x : Number} (h : Lexeme text (.number x)) : Plain text := by
  cases h with
  | whole hne hd _ => exact .whole hne hd
  | fraction hne hd hne' hd' _ => exact .fraction hne hd hne' hd'

/-- A source that is a lexeme of a number is scanned to that number and nothing else. -/
theorem items_of_lexeme {text : String} {x : Number} (h : Lexeme text.toList (.number x)) :
    Item.ofSource text = [.token ⟨.number x, text, 1⟩, .token ⟨.finish, "", 1⟩] := by
  have hlines : text.toList.count '\n' = 0 := List.count_eq_zero.2 (plain_of_lexeme h).not_newline
  obtain ⟨c, cs, hcs, hfirst⟩ := h.first_eq
  have hpieces : Piece.ofSource text.toList = [⟨.token (.number x), text.toList⟩] := by
    rw [hcs, Piece.ofSource, hfirst, ← hcs, Piece.ofSource]
  rw [Item.ofSource, hpieces]
  simp [Item.ofPieces, Piece.item?, Piece.newlines, hlines]

/-- Each text that is shown for a finite number without a sign (as a value, as the literal of a token, in a tree) is
digits with at most one point, and is scanned to that number and the end of the source, without errors. As a value a
whole number is shown as an integer as far as integers are distinct. -/
theorem texts_read_back {x : Number} (hfinite : x.isFinite = true) (hsign : x.isNegative = false) :
    (∀ text ∈ [(Value.number x).display, (Token.Kind.number x).literalText, (Literal.number x).render],
      Plain text.toList ∧
      Item.ofSource text = [.token ⟨.number x, text, 1⟩, .token ⟨.finish, "", 1⟩] ∧
      ∀ n, (Scanner.ofSource text).answer? n =
        some [Item.token ⟨.number x, text, 1⟩, .token ⟨.finish, "", 1⟩][n]?) ∧
    (x.isWhole = true → x.wholePart < 2 ^ 53 →
      (Value.number x).display = String.ofList (digitsOf x.wholePart)) := by
  refine ⟨fun text htext => ?_, fun hwhole hlt => ?_⟩
  · have hlexeme : Lexeme text.toList (.number x) := by
      simp only [List.mem_cons, List.not_mem_nil, or_false] at htext
      obtain rfl | rfl | rfl := htext
      · simpa [Value.display] using display_lexeme hfinite hsign
      · simpa [Token.Kind.literalText] using tokenText_lexeme hfinite hsign
      · simpa [Literal.render] using treeText_lexeme hfinite hsign
    have hitems := items_of_lexeme hlexeme
    exact ⟨plain_of_lexeme hlexeme, hitems, fun n => hitems ▸ Scanner.answer?_ofSource text n⟩
  · rw [Value.display, display, if_pos hfinite, signed, if_neg (by simp [hsign]), plainText_whole hwhole hlt]

/-- The first number that is too great for a token to show it in full: its digits are those that read back. -/
theorem texts_read_back_two_pow :
    Item.ofSource "9223372036854776000" =
      [.token ⟨.number ⟨0x43e0000000000000⟩, "9223372036854776000", 1⟩, .token ⟨.finish, "", 1⟩] :=
  have htext : (Token.Kind.number ⟨0x43e0000000000000⟩).literalText = "9223372036854776000" := by decide +kernel
  ((texts_read_back (by decide) (by decide)).1 "9223372036854776000" (by simp [htext])).2.1

end Number

end LoxLang
