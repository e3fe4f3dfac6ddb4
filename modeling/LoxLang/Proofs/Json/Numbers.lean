import LoxLang.Proofs.Json.Decoder
import LoxLang.Proofs.Number.Texts

namespace LoxLang

namespace Number

/-- The number of a magnitude under a sign. -/
def ofParts (negative : Bool) (i : Nat) : Number := ⟨UInt64.ofNat (if negative then signBit + i else i)⟩

/-- A number is its magnitude under its sign. -/
theorem ofParts_eq (x : Number) : ofParts x.isNegative x.magnitude = x := by
  obtain ⟨bits⟩ := x
  have hbits := bits.toNat_lt
  have hsign : signBit = 2 ^ 63 := rfl
  unfold ofParts isNegative magnitude
  congr 1
  refine UInt64.toNat_inj.1 ?_
  rw [UInt64.toNat_ofNat', hsign]
  dsimp only
  split
  · next h =>
    rw [decide_eq_true_eq] at h
    omega
  · next h =>
    rw [decide_eq_true_eq] at h
    omega

/-- What a decimal reads as depends on its value alone. -/
theorem Decimal.magnitude_congr {d d' : Decimal} (h : d.value = d'.value) : d.magnitude = d'.magnitude := by
  have hd := d.magnitude_nearest
  rw [h] at hd
  exact hd.unique d'.magnitude_nearest

/-- No zero stands in front of other digits. -/
def Leads (ds : List Char) : Prop := ds = ['0'] ∨ ∃ c cs, ds = c :: cs ∧ c ≠ '0'

theorem leads_singleton (c : Char) : Leads [c] := by
  by_cases hc : c = '0'
  · exact .inl (by rw [hc])
  · exact .inr ⟨c, [], rfl, hc⟩

/-- The digits of a natural number have no zero in front unless they are just that. -/
theorem leads_digitsOf (n : Nat) : Leads (digitsOf n) := by
  induction n using Nat.strongRecOn with
  | ind n ih =>
    by_cases hn : n < 10
    · rw [digitsOf, Nat.toDigits_of_lt_base hn]
      exact leads_singleton _
    · have hpos : 0 < n / 10 := by omega
      have hsplit : digitsOf n = digitsOf (n / 10) ++ digitsOf (n % 10) := by
        have h := Nat.toDigits_append_toDigits (b := 10) (by decide) hpos (Nat.mod_lt n (by decide))
        rw [Nat.div_add_mod] at h
        exact h.symm
      rw [hsplit]
      obtain hzero | ⟨c, cs, hcs, hc⟩ := ih (n / 10) (by omega)
      · have hvalue : ofDigits (digitsOf (n / 10)) = 0 := by rw [hzero]; rfl
        rw [ofDigits_digitsOf] at hvalue
        omega
      · exact .inr ⟨c, cs ++ digitsOf (n % 10), by rw [hcs]; rfl, hc⟩

/-- Positional notation with a point, told apart into the digits on both sides. -/
theorem Decimal.positional_point {d : Decimal} (h : d.exponent < 0) :
    ∃ whole part, d.positional = whole ++ '.' :: part ∧ Leads whole ∧ (∀ c ∈ whole ++ part, c.isDigit) ∧ part ≠ [] ∧
      (part.length : Int) = -d.exponent ∧ ofDigits (whole ++ part) = d.digits := by
  have hplaces : 0 < (-d.exponent).toNat := by omega
  have hlead := leads_digitsOf d.digits
  unfold positional
  rw [if_neg (by omega)]
  dsimp only
  generalize hzeros : (-d.exponent).toNat + 1 - (digitsOf d.digits).length = zeros
  generalize hpadded : List.replicate zeros '0' ++ digitsOf d.digits = padded
  have hlength : padded.length = zeros + (digitsOf d.digits).length := by
    rw [← hpadded, List.length_append, List.length_replicate]
  have hdigits : ∀ c ∈ padded, c.isDigit := by
    intro c hc
    rw [← hpadded, List.mem_append] at hc
    exact hc.elim isDigit_of_mem_zeros isDigit_of_mem_digitsOf
  have hpart : (padded.drop (padded.length - (-d.exponent).toNat)).length = (-d.exponent).toNat := by
    rw [List.length_drop]
    omega
  refine ⟨_, _, rfl, ?_, ?_, ?_, ?_, ?_⟩
  · -- In front of the point stands one of the zeros that pad, or what leads the digits.
    cases zeros with
    | zero =>
      obtain hzero | ⟨c, cs, hcs, hc⟩ := hlead
      · rw [hzero, List.length_singleton] at hzeros
        omega
      · rw [← hpadded, List.replicate_zero, List.nil_append, hcs]
        obtain ⟨n, hn⟩ : ∃ n, (c :: cs).length - (-d.exponent).toNat = n + 1 := by
          rw [hcs] at hzeros
          exact ⟨_, (Nat.succ_pred_eq_of_pos (by omega)).symm⟩
        rw [hn, List.take_succ_cons]
        exact .inr ⟨c, _, rfl, hc⟩
    | succ zeros =>
      have hcut : padded.length - (-d.exponent).toNat = 1 := by omega
      rw [hcut, ← hpadded, List.replicate_succ, List.cons_append, List.take_succ_cons, List.take_zero]
      exact .inl rfl
  · rwa [List.take_append_drop]
  · refine List.ne_nil_of_length_pos ?_
    rwa [hpart]
  · rw [hpart]
    omega
  · rw [List.take_append_drop, ← hpadded, ofDigits_padded, ofDigits_digitsOf]

theorem Decimal.positional_whole {d : Decimal} (h : 0 ≤ d.exponent) :
    d.positional = digitsOf d.digits ++ List.replicate d.exponent.toNat '0' := if_pos h

/-- Nor do they in positional notation. -/
theorem Decimal.leads_positional {d : Decimal} (h : 0 ≤ d.exponent) (hzero : d.digits = 0 → d.exponent = 0) :
    Leads d.positional := by
  rw [positional_whole h]
  obtain hdigits | ⟨c, cs, hcs, hc⟩ := leads_digitsOf d.digits
  · have hvalue := ofDigits_digitsOf d.digits
    rw [hdigits] at hvalue
    rw [hdigits, hzero hvalue.symm]
    exact .inl rfl
  · exact .inr ⟨c, cs ++ List.replicate d.exponent.toNat '0', by rw [hcs]; rfl, hc⟩

/-- The shortest decimal of zero is zero without zeros behind it. -/
theorem shortest_exponent_of_zero (tie : Tie) {i : Nat} (hi : i ≤ infinite) (h : (shortest tie i).digits = 0) :
    (shortest tie i).exponent = 0 := by
  have hmagnitude : (shortest tie i).magnitude = 0 := by
    refine Decimal.magnitude_of_value (Nat.zero_le _) ?_
    rw [value_zero, Decimal.value, Decimal.numerator, h, Nat.zero_mul, Nat.cast_zero, zero_div]
  rw [shortest_reads tie hi] at hmagnitude
  rw [hmagnitude]
  rfl

end Number

namespace Json

open Number

variable {ds whole part rest : List Char}

/-- What may follow a number. -/
def Ends (rest : List Char) : Prop := ∀ c ∈ rest.head?, c.isDigit = false ∧ c ≠ '.' ∧ c ≠ 'e' ∧ c ≠ 'E'

/-- Digits are read up to what is none. -/
theorem digits_append (hne : ds ≠ []) (hd : ∀ c ∈ ds, c.isDigit) (hrest : ∀ c ∈ rest.head?, c.isDigit = false) :
    digits (ds ++ rest) = some (ds, rest) := by
  have htake : rest.takeWhile Char.isDigit = [] := by
    cases rest with
    | nil => rfl
    | cons c rest => rw [List.takeWhile_cons_of_neg (by simp [hrest c rfl])]
  have hdrop : rest.dropWhile Char.isDigit = rest := by
    cases rest with
    | nil => rfl
    | cons c rest => rw [List.dropWhile_cons_of_neg (by simp [hrest c rfl])]
  unfold digits
  rw [List.takeWhile_append_of_pos hd, List.dropWhile_append_of_pos hd, htake, hdrop, List.append_nil]
  simp [hne]

/-- Whole digits without a zero in front are read. -/
theorem integer_append (hlead : Leads ds) (hd : ∀ c ∈ ds, c.isDigit) (hrest : ∀ c ∈ rest.head?, c.isDigit = false) :
    integer (ds ++ rest) = some (ds, rest) := by
  obtain rfl | ⟨c, cs, rfl, hc⟩ := hlead
  · rfl
  · have hdigits := digits_append (List.cons_ne_nil c cs) hd hrest
    rw [← hdigits, List.cons_append]
    unfold integer
    split
    · next heq => exact absurd (List.cons.inj heq).1 hc
    · rfl

theorem fraction_append (hd : ∀ c ∈ part, c.isDigit) (hrest : ∀ c ∈ rest.head?, c.isDigit = false ∧ c ≠ '.') :
    fraction ((if part.isEmpty then [] else '.' :: part) ++ rest) = some (part, rest) := by
  cases part with
  | nil =>
    change fraction rest = _
    unfold fraction
    split
    · exact absurd rfl (hrest '.' rfl).2
    · rfl
  | cons d ds => exact digits_append (List.cons_ne_nil d ds) hd fun c hc => (hrest c hc).1

theorem exponent_none (hrest : ∀ c ∈ rest.head?, c ≠ 'e' ∧ c ≠ 'E') : exponent rest = some (0, rest) := by
  unfold exponent
  split
  · exact absurd rfl (hrest 'e' rfl).1
  · exact absurd rfl (hrest 'E' rfl).2
  · rfl

/-- An exponent with its sign. -/
theorem exponent_append (e : Int) (hrest : ∀ c ∈ rest.head?, c.isDigit = false) :
    exponent ('e' :: (if e < 0 then '-' else '+') :: digitsOf e.natAbs ++ rest) = some (e, rest) := by
  have hdigits : digits (digitsOf e.natAbs ++ rest) = some (digitsOf e.natAbs, rest) :=
    digits_append (digitsOf_ne_nil _) (fun _ => isDigit_of_mem_digitsOf) hrest
  by_cases he : e < 0
  · simp [exponent, signedExponent, magnitudeOfExponent, he, hdigits, ofDigits_digitsOf, abs_of_neg he]
  · simp [exponent, signedExponent, magnitudeOfExponent, he, hdigits, ofDigits_digitsOf, abs_of_nonneg (not_lt.1 he)]

/-- A decimal is read part by part: whole digits, digits behind a point, exponent. -/
theorem decimal_eq {cs cs' cs'' : List Char} {e : Int} (hwhole : integer cs = some (whole, cs'))
    (hpart : fraction cs' = some (part, cs'')) (he : exponent cs'' = some (e, rest)) :
    decimal cs = some (⟨ofDigits (whole ++ part), e - part.length⟩, rest) := by
  simp [decimal, hwhole, hpart, he]

/-- Digits, and maybe a point with digits behind it. -/
theorem decimal_plain (hlead : Leads whole) (hwhole : ∀ c ∈ whole, c.isDigit) (hpart : ∀ c ∈ part, c.isDigit)
    (hrest : Ends rest) :
    decimal (whole ++ ((if part.isEmpty then [] else '.' :: part) ++ rest)) =
      some (⟨ofDigits (whole ++ part), -part.length⟩, rest) := by
  have hinteger := @integer_append _ ((if part.isEmpty then [] else '.' :: part) ++ rest) hlead hwhole ?_
  · rw [decimal_eq hinteger (fraction_append hpart fun c hc => ⟨(hrest c hc).1, (hrest c hc).2.1⟩)
      (exponent_none fun c hc => (hrest c hc).2.2), Int.zero_sub]
  · cases part with
    | nil => exact fun c hc => (hrest c hc).1
    | cons d ds => simp

/-- The same with an exponent. -/
theorem decimal_shifted (e : Int) (hlead : Leads whole) (hwhole : ∀ c ∈ whole, c.isDigit)
    (hpart : ∀ c ∈ part, c.isDigit) (hrest : Ends rest) :
    decimal (whole ++ ((if part.isEmpty then [] else '.' :: part) ++
      ('e' :: (if e < 0 then '-' else '+') :: digitsOf e.natAbs ++ rest))) =
        some (⟨ofDigits (whole ++ part), e - part.length⟩, rest) := by
  have hinteger := @integer_append _ ((if part.isEmpty then [] else '.' :: part) ++
    ('e' :: (if e < 0 then '-' else '+') :: digitsOf e.natAbs ++ rest)) hlead hwhole ?_
  · exact decimal_eq hinteger (fraction_append hpart (by simp)) (exponent_append e fun c hc => (hrest c hc).1)
  · cases part with
    | nil => simp
    | cons d ds => simp

theorem digits_head {cs : List Char} {r : List Char × List Char} (h : digits cs = some r) :
    ∃ c more, cs = c :: more ∧ c.isDigit := by
  unfold digits at h
  split at h
  · cases h
  · next hne =>
    cases cs with
    | nil => exact absurd rfl hne
    | cons c more =>
      refine ⟨c, more, rfl, ?_⟩
      by_contra hc
      exact hne (by rw [List.takeWhile_cons_of_neg hc]; rfl)

theorem decimal_head {cs : List Char} {r : Decimal × List Char} (h : decimal cs = some r) :
    ∃ c more, cs = c :: more ∧ c.isDigit := by
  obtain ⟨whole, hwhole, -⟩ := Option.bind_eq_some_iff.1 h
  unfold integer at hwhole
  split at hwhole
  · exact ⟨'0', _, rfl, by decide⟩
  · exact digits_head hwhole

/-- A decimal is a number without a sign. -/
theorem numeral_unsigned {cs : List Char} {d : Decimal} (h : decimal cs = some (d, rest)) :
    numeral cs = some (.number false d, rest) := by
  obtain ⟨c, more, rfl, hdigit⟩ := decimal_head h
  unfold numeral
  split
  · next heq =>
    rw [(List.cons.inj heq).1] at hdigit
    cases hdigit
  · rw [h, Option.map_some]

/-- A sign is read as it is written. -/
theorem numeral_signed {x : Number} {text : List Char} {d : Decimal} (h : decimal (text ++ rest) = some (d, rest)) :
    numeral (x.signed text ++ rest) = some (.number x.isNegative d, rest) := by
  unfold signed
  cases x.isNegative with
  | true => simp [numeral, h]
  | false => exact numeral_unsigned h

theorem numeral_head {cs : List Char} {r : Json × List Char} (h : numeral cs = some r) :
    ∃ c more, cs = c :: more ∧ (c = '-' ∨ c.isDigit) := by
  unfold numeral at h
  split at h
  · exact ⟨'-', _, rfl, .inl rfl⟩
  · obtain ⟨r', hr, -⟩ := Option.map_eq_some_iff.1 h
    obtain ⟨c, more, hc, hdigit⟩ := decimal_head hr
    exact ⟨c, more, hc, .inr hdigit⟩

/-- A number is told from other values by its first character. -/
theorem value_numeral {steps : Nat} {cs : List Char} {v : Json} (h : numeral cs = some (v, rest)) :
    value (steps + 1) cs = some (v, rest) := by
  obtain ⟨c, more, rfl, hc⟩ := numeral_head h
  have happart : ∀ d ∈ ['n', 't', 'f', '"', '[', '\x7b', ' ', '\t', '\n', '\r'], c ≠ d := by
    rintro d hd rfl
    obtain rfl | hc := hc
    · revert hd
      decide
    · simp only [List.mem_cons, List.not_mem_nil, or_false] at hd
      rcases hd with rfl | rfl | rfl | rfl | rfl | rfl | rfl | rfl | rfl | rfl <;> cases hc
  have hskip : skip (c :: more) = c :: more := by simp [skip, isSpace, happart]
  unfold value
  rw [hskip]
  split
  case h_7 => exact h
  all_goals
    next heq =>
    exact absurd (List.cons.inj heq).1 (happart _ (by decide))

/-- Scientific notation is read as the decimal that it is made of. -/
theorem decimal_scientific (d : Decimal) (hrest : Ends rest) : decimal (d.scientific ++ rest) = some (d, rest) := by
  have hdigits : ∀ c ∈ digitsOf d.digits, c.isDigit := fun _ => isDigit_of_mem_digitsOf
  have hvalue := ofDigits_digitsOf d.digits
  unfold Decimal.scientific Decimal.leadingExponent
  obtain ⟨c, cs, hcs⟩ := List.exists_cons_of_ne_nil (digitsOf_ne_nil d.digits)
  rw [hcs] at hdigits hvalue ⊢
  have hread := decimal_shifted (d.exponent + (c :: cs).length - 1) (leads_singleton c)
    (fun e he => hdigits e (List.mem_cons.2 (.inl (List.mem_singleton.1 he))))
    (fun e he => hdigits e (List.mem_cons_of_mem c he)) hrest
  have hexponent : d.exponent + (c :: cs).length - 1 - cs.length = d.exponent := by
    rw [List.length_cons]
    omega
  have hjoin : [c] ++ cs = c :: cs := rfl
  rw [hjoin, hvalue, hexponent] at hread
  simpa using hread

/-- So is positional notation with a point. -/
theorem decimal_positional {d : Decimal} (h : d.exponent < 0) (hrest : Ends rest) :
    decimal (d.positional ++ rest) = some (d, rest) := by
  obtain ⟨whole, part, htext, hlead, hdigits, hne, hlength, hvalue⟩ := Decimal.positional_point h
  have hread := decimal_plain hlead (fun c hc => hdigits c (List.mem_append_left _ hc))
    (fun c hc => hdigits c (List.mem_append_right _ hc)) hrest
  rw [hvalue, hlength, Int.neg_neg, if_neg (by simpa using hne)] at hread
  rw [htext, List.append_assoc]
  exact hread

/-- A decimal that stands for a whole number, with a zero behind the point. -/
theorem decimal_positional_whole {d : Decimal} (h : 0 ≤ d.exponent) (hzero : d.digits = 0 → d.exponent = 0)
    (hrest : Ends rest) :
    ∃ d', decimal (d.positional ++ ['.', '0'] ++ rest) = some (d', rest) ∧ d'.value = d.value := by
  have hdigits : ∀ c ∈ d.positional, c.isDigit := by
    intro c hc
    rw [Decimal.positional_whole h, List.mem_append] at hc
    exact hc.elim isDigit_of_mem_digitsOf isDigit_of_mem_zeros
  have hread := @decimal_plain _ ['0'] _ (Decimal.leads_positional h hzero) hdigits (by simp) hrest
  refine ⟨⟨ofDigits (d.positional ++ ['0']), -1⟩, ?_, ?_⟩
  · rw [List.append_assoc]
    exact hread
  · have hnegated : (-d.exponent).toNat = 0 := by omega
    have hone : ofDigits ['0'] = 0 := rfl
    have hlast : ∀ ds, ofDigits (ds ++ ['0']) = ofDigits ds * 10 := fun ds => ofDigits_append ds ['0']
    rw [hlast, Decimal.positional_whole h, ofDigits_append, ofDigits_digitsOf, ofDigits_zeros]
    simp [Decimal.value, Decimal.numerator, Decimal.denominator, hnegated, tenPow]

/-- The text of a finite number is read as a decimal that is nearest to that number. -/
theorem numeral_jsonText {x : Number} (hfinite : x.isFinite = true) (hrest : Ends rest) :
    ∃ d, numeral (x.jsonText ++ rest) = some (.number x.isNegative d, rest) ∧ d.magnitude = x.magnitude := by
  have hmax : x.magnitude ≤ infinite := by
    rw [isFinite, decide_eq_true_eq] at hfinite
    exact hfinite.le
  have hreads := shortest_reads .even hmax
  have hzero := shortest_exponent_of_zero .even hmax
  unfold jsonText
  rw [if_pos hfinite]
  dsimp only
  generalize shortest .even x.magnitude = d at hreads hzero
  split
  · exact ⟨d, numeral_signed (decimal_scientific d hrest), hreads⟩
  · split
    · next hexponent =>
      obtain ⟨d', hd', hvalue⟩ := decimal_positional_whole hexponent hzero hrest
      exact ⟨d', numeral_signed hd', (Decimal.magnitude_congr hvalue).trans hreads⟩
    · next hexponent => exact ⟨d, numeral_signed (decimal_positional (not_le.1 hexponent) hrest), hreads⟩

end Json

end LoxLang
