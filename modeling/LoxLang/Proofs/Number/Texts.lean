import Mathlib.Data.Nat.Cast.Field
import LoxLang.Number.Text
import LoxLang.Proofs.Token.Lexemes

namespace LoxLang

namespace Number

theorem value_zero : value 0 = 0 := by
  have hunits : units 0 = 0 := by decide
  rw [value, hunits, Nat.cast_zero, zero_div]

/-- A magnitude is nearest to its own value. -/
theorem nearest_value {i : Nat} (hi : i ≤ infinite) : Nearest (value i) i where
  le := hi
  nearest := by simp
  even := by
    intro j hj hne h
    have hscale : (scale : ℚ) ≠ 0 := by exact_mod_cast scale_pos.ne'
    rw [sub_self, abs_zero, eq_comm, abs_eq_zero, sub_eq_zero] at h
    have hunits : units j = units i := by exact_mod_cast (div_left_inj' hscale).mp h
    exact absurd (units_strictMono.injective hunits) hne

namespace Decimal

/-- The value of a decimal. -/
def value (d : Decimal) : ℚ := d.numerator / d.denominator

theorem denominator_pos (d : Decimal) : 0 < d.denominator := tenPow_pos _

theorem magnitude_nearest (d : Decimal) : Nearest d.value d.magnitude :=
  nearestMagnitude_nearest d.numerator d.denominator_pos

/-- A decimal that is the value of a magnitude reads as that magnitude. -/
theorem magnitude_of_value {d : Decimal} {i : Nat} (hi : i ≤ infinite) (h : d.value = Number.value i) :
    d.magnitude = i := by
  have hd := d.magnitude_nearest
  rw [h] at hd
  exact hd.unique (nearest_value hi)

end Decimal

/-- On a grid one of the two decimals around the magnitude is tried, not always the lower. -/
theorem nearer_cases (tie : Tie) (i low : Nat) (p : Int) : nearer tie i low p = low ∨ nearer tie i low p = low + 1 := by
  unfold nearer
  grind

theorem onGrid?_reads {tie : Tie} {i : Nat} {p : Int} {d : Decimal} (h : onGrid? tie i p = some d) :
    d.magnitude = i := by
  unfold onGrid? at h
  cases hlow : Decimal.magnitude ⟨floorAt i p, p⟩ == i <;> cases hhigh : Decimal.magnitude ⟨floorAt i p + 1, p⟩ == i
  all_goals
    simp only [hlow, hhigh, Bool.and_true, Bool.and_false, Bool.false_eq_true, if_true, if_false] at h
  case false.false => cases h
  case false.true =>
    cases h
    exact beq_iff_eq.mp hhigh
  case true.false =>
    cases h
    exact beq_iff_eq.mp hlow
  case true.true =>
    rw [← Option.some.inj h]
    obtain he | he := nearer_cases tie i (floorAt i p) p
    · rw [he]
      exact beq_iff_eq.mp hlow
    · rw [he]
      exact beq_iff_eq.mp hhigh

/-- Units of which there are `2 ^ k` in one, as a decimal with `k` places. -/
theorem places_value (u k : Nat) :
    ((u * Nat.pow 5 k * tenPow 0 : Nat) : ℚ) / (tenPow k : Nat) = u / (twoPow k : Nat) := by
  have hten : tenPow k = 5 ^ k * 2 ^ k := by
    change 10 ^ k = _
    rw [← Nat.mul_pow]
  have htwo : twoPow k = 2 ^ k := rfl
  have hzero : tenPow 0 = 1 := rfl
  have hfive : (5 : ℚ) ^ k ≠ 0 := pow_ne_zero k (by decide)
  rw [hten, htwo, hzero, Nat.mul_one, Nat.pow_eq]
  push_cast
  rw [mul_comm ((5 : ℚ) ^ k), mul_div_mul_right _ _ hfive]

/-- Where no grid has a decimal that reads back, all digits of the magnitude are taken, so there is one in any case. -/
theorem exactDecimal_value (i : Nat) : (exactDecimal i).value = value i := by
  have hdigits : (exactDecimal i).digits = units i * Nat.pow 5 1074 := rfl
  have hplaces : (-(exactDecimal i).exponent).toNat = 1074 := rfl
  have hinteger : (exactDecimal i).exponent.toNat = 0 := rfl
  unfold Decimal.value Decimal.numerator Decimal.denominator value scale
  rw [hdigits, hplaces, hinteger]
  generalize 1074 = k
  exact places_value (units i) k

/-- The shortest decimal of a magnitude reads as that magnitude. -/
theorem shortest_reads (tie : Tie) {i : Nat} (hi : i ≤ infinite) : (shortest tie i).magnitude = i := by
  unfold shortest
  split
  · next hzero =>
    subst hzero
    refine Decimal.magnitude_of_value hi ?_
    have hunits : units 0 = 0 := by decide
    simp only [Decimal.value, Decimal.numerator, value, hunits, Nat.zero_mul, Nat.cast_zero, zero_div]
  · cases hfound : (List.range 20).findSome? fun (n : Nat) => onGrid? tie i (topGrid i - n) with
    | none => exact Decimal.magnitude_of_value hi (exactDecimal_value i)
    | some d =>
      obtain ⟨n, -, hn⟩ := List.exists_of_findSome?_eq_some hfound
      exact onGrid?_reads hn

theorem ofDigits_digitsOf (n : Nat) : ofDigits (digitsOf n) = n := Nat.ofDigitChars_toDigits (by decide) (by decide)

theorem isDigit_of_mem_digitsOf {n : Nat} {c : Char} (h : c ∈ digitsOf n) : c.isDigit :=
  Nat.isDigit_of_mem_toDigits (by decide) (by decide) h

theorem digitsOf_ne_nil (n : Nat) : digitsOf n ≠ [] := Nat.toDigits_ne_nil

theorem ofDigits_zeros (n : Nat) : ofDigits (List.replicate n '0') = 0 := by
  induction n with
  | zero => rfl
  | succ n ih =>
    have hone : ofDigits ['0'] = 0 := rfl
    rw [List.replicate_succ, ← List.singleton_append, ofDigits_append, ih, hone, Nat.zero_mul]

/-- Zeros in front count for nothing. -/
theorem ofDigits_padded (n : Nat) (cs : List Char) : ofDigits (List.replicate n '0' ++ cs) = ofDigits cs := by
  rw [ofDigits_append, ofDigits_zeros, Nat.zero_mul, Nat.zero_add]

theorem isDigit_of_mem_zeros {n : Nat} {c : Char} (h : c ∈ List.replicate n '0') : c.isDigit := by
  obtain ⟨-, rfl⟩ := List.mem_replicate.mp h
  rfl

/-- The positional text of a decimal stands for its value: for whatever number this is to be rounded. -/
theorem Decimal.positional_lexeme (d : Decimal) {x : Number} (hx : Rounds d.value x) :
    Lexeme d.positional (.number x) := by
  unfold positional
  dsimp only
  split
  · next hexponent =>
    have hnegated : (-d.exponent).toNat = 0 := by omega
    refine .whole (by simp [digitsOf_ne_nil]) ?_ ?_
    · intro c hc
      exact (List.mem_append.mp hc).elim isDigit_of_mem_digitsOf isDigit_of_mem_zeros
    · have hvalue : quantity (digitsOf d.digits ++ List.replicate d.exponent.toNat '0') [] = d.value := by
        rw [quantity_eq, List.append_nil, ofDigits_append, ofDigits_digitsOf, ofDigits_zeros]
        simp [value, numerator, denominator, hnegated, tenPow]
      rwa [hvalue]
  · next hexponent =>
    have hinteger : d.exponent.toNat = 0 := by omega
    have hplaces : 0 < (-d.exponent).toNat := by omega
    generalize hzeros : (-d.exponent).toNat + 1 - (digitsOf d.digits).length = zeros
    generalize hpadded : List.replicate zeros '0' ++ digitsOf d.digits = padded
    have hlength : (-d.exponent).toNat < padded.length := by
      rw [← hpadded, List.length_append, List.length_replicate]
      omega
    have hdigits : ∀ c ∈ padded, c.isDigit := by
      intro c hc
      rw [← hpadded, List.mem_append] at hc
      exact hc.elim isDigit_of_mem_zeros isDigit_of_mem_digitsOf
    have hfraction : (padded.drop (padded.length - (-d.exponent).toNat)).length = (-d.exponent).toNat := by
      rw [List.length_drop]
      omega
    refine .fraction ?_ (fun c hc => hdigits c (List.mem_of_mem_take hc)) ?_
      (fun c hc => hdigits c (List.mem_of_mem_drop hc)) ?_
    · refine List.ne_nil_of_length_pos ?_
      rw [List.length_take]
      omega
    · refine List.ne_nil_of_length_pos ?_
      rwa [hfraction]
    · rw [quantity_eq, hfraction, List.take_append_drop, ← hpadded, ofDigits_padded, ofDigits_digitsOf]
      simpa [value, numerator, denominator, hinteger, tenPow] using hx

/-- The text of a whole number is exact. -/
theorem wholeText_lexeme {x : Number} (hwhole : x.isWhole = true) (hsign : x.isNegative = false) :
    Lexeme x.wholeText (.number x) := by
  simp only [isWhole, Bool.and_eq_true, isFinite, decide_eq_true_eq, beq_iff_eq] at hwhole
  obtain ⟨hfinite, hmod⟩ := hwhole
  refine .fraction (digitsOf_ne_nil _) (fun _ => isDigit_of_mem_digitsOf) (by simp) (by simp) ?_
  have hvalue : quantity (digitsOf x.wholePart) ['0'] = value x.magnitude := by
    have hzero : ofDigits ['0'] = 0 := rfl
    have hscale : (scale : ℚ) ≠ 0 := by exact_mod_cast scale_pos.ne'
    rw [quantity, ofDigits_digitsOf, hzero, Nat.cast_zero, zero_div, add_zero, wholePart, value,
      Nat.cast_div (Nat.dvd_of_mod_eq_zero hmod) hscale]
  rw [hvalue]
  exact ⟨hsign, nearest_value hfinite.le⟩

/-- The shortest digits that read back are enough, with a point or without. -/
theorem plainText_lexeme {x : Number} (hfinite : x.isFinite = true) (hsign : x.isNegative = false) :
    Lexeme x.plainText (.number x) := by
  have hlt : x.magnitude < infinite := by simpa [isFinite] using hfinite
  have hnearest := (shortest .upper x.magnitude).magnitude_nearest
  rw [shortest_reads .upper hlt.le] at hnearest
  exact Decimal.positional_lexeme _ ⟨hsign, hnearest⟩

/-- The text of a finite number without a sign, in a printed tree, is a lexeme of that number. -/
theorem treeText_lexeme {x : Number} (hfinite : x.isFinite = true) (hsign : x.isNegative = false) :
    Lexeme x.treeText (.number x) := by
  unfold treeText
  split
  · next hwhole => simpa [signed, hsign] using wholeText_lexeme hwhole hsign
  · simpa [display, hfinite, signed, hsign] using plainText_lexeme hfinite hsign

end Number

end LoxLang
