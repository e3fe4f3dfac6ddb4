import Mathlib.Algebra.Order.Field.Basic
import Mathlib.Algebra.Order.Ring.Rat
import Mathlib.Algebra.Ring.Parity
import Mathlib.Order.Monotone.Basic
import Mathlib.Tactic.FieldSimp
import Mathlib.Tactic.Linarith
import Mathlib.Tactic.Positivity
import Mathlib.Tactic.Ring
import LoxLang.Number.Rounding

namespace LoxLang.Number

/-- The value of a magnitude. Infinity stands for the number that would be next to the largest. -/
def value (i : Nat) : ℚ := units i / scale

/-- No magnitude is nearer to the quantity, and if another is as near, this is the even one. -/
structure Nearest (q : ℚ) (i : Nat) : Prop where
  le : i ≤ infinite
  nearest : ∀ j ≤ infinite, |value i - q| ≤ |value j - q|
  even : ∀ j ≤ infinite, j ≠ i → |value i - q| = |value j - q| → Even i

/-- The number is the quantity, which is not negative, correctly rounded. -/
def Rounds (q : ℚ) (x : Number) : Prop := x.isNegative = false ∧ Nearest q x.magnitude

/-- The quantity that digits with a fraction stand for. -/
def quantity (whole fraction : List Char) : ℚ := ofDigits whole + ofDigits fraction / 10 ^ fraction.length

theorem twoPow_pos (n : Nat) : 0 < twoPow n := Nat.pow_pos (by decide)

theorem twoPow_add (m n : Nat) : twoPow (m + n) = twoPow m * twoPow n := Nat.pow_add 2 m n

theorem scale_pos : 0 < scale := twoPow_pos 1074

theorem binade_eq : binade = 4503599627370496 := rfl

/-- Magnitudes count through: in steps of one width up to the end of a binade, and on from there in wider ones. The end
of one binade is also the start of the next. -/
theorem units_step {s r : Nat} (h : s = 0 ∨ binade ≤ r) (hr : r ≤ 2 * binade) :
    units (s * binade + r) = r * twoPow s := by
  unfold units
  rw [binade_eq] at *
  by_cases hlow : r < 4503599627370496
  · obtain rfl : s = 0 := by omega
    rw [if_pos (by omega)]
    simp [twoPow]
  · rw [if_neg (by omega)]
    by_cases htop : r = 2 * 4503599627370496
    · have hs : (s * 4503599627370496 + r) / 4503599627370496 - 1 = s + 1 := by omega
      have hm : (s * 4503599627370496 + r) % 4503599627370496 = 0 := by omega
      rw [hs, hm, twoPow_add, htop]
      change _ * (_ * 2) = _
      ring
    · have hs : (s * 4503599627370496 + r) / 4503599627370496 - 1 = s := by omega
      have hm : 4503599627370496 + (s * 4503599627370496 + r) % 4503599627370496 = r := by omega
      rw [hs, hm]

/-- Every magnitude is a step of some width, counted from zero in the first binades and from their start in all others.
-/
theorem exists_step (k : Nat) :
    ∃ s r, k = s * binade + r ∧ (s = 0 ∨ binade ≤ r) ∧ r < 2 * binade := by
  rw [binade_eq]
  by_cases hk : k < 4503599627370496
  · exact ⟨0, k, by omega, .inl rfl, by omega⟩
  · exact ⟨k / 4503599627370496 - 1, 4503599627370496 + k % 4503599627370496, by omega, .inr (by omega), by omega⟩

/-- Greater magnitudes are greater numbers, across the ends of binades too. -/
theorem units_strictMono : StrictMono units := by
  refine strictMono_nat_of_lt_succ fun k => ?_
  obtain ⟨s, r, rfl, hs, hr⟩ := exists_step k
  have hnext : units (s * binade + (r + 1)) = (r + 1) * twoPow s := units_step (hs.imp_right (by omega)) hr
  rw [Nat.add_assoc, hnext, units_step hs hr.le]
  exact Nat.mul_lt_mul_of_pos_right (Nat.lt_succ_self r) (twoPow_pos s)

/-- How far a magnitude is from a quotient of naturals. -/
def offset (total den i : Nat) : Nat := (units i * den - total : Int).natAbs

/-- Distances are counted in the least positive number, so that they are distances of naturals. -/
theorem abs_value_sub {num den : Nat} (hd : 0 < den) (i : Nat) :
    |value i - (num / den : ℚ)| = (offset (num * scale) den i : ℚ) / (scale * den) := by
  have hscale : (0 : ℚ) < scale := by exact_mod_cast scale_pos
  unfold value offset
  generalize scale = c at hscale ⊢
  have hden : (0 : ℚ) < den := by exact_mod_cast hd
  have hvalue : (units i / c - num / den : ℚ) = (units i * den - num * c) / (c * den) := by field_simp
  rw [hvalue, abs_div, abs_of_pos (mul_pos hscale hden), Nat.cast_natAbs]
  push_cast
  rfl

/-- It is enough to compare distances in natural numbers. -/
theorem nearest_of_offset {num den i : Nat} (hd : 0 < den) (hi : i ≤ infinite)
    (h : ∀ j ≤ infinite, j ≠ i → offset (num * scale) den i < offset (num * scale) den j ∨
      offset (num * scale) den i = offset (num * scale) den j ∧ Even i) : Nearest (num / den) i := by
  have hscale : (0 : ℚ) < scale := by exact_mod_cast scale_pos
  have hpos : (0 : ℚ) < scale * den := mul_pos hscale (by exact_mod_cast hd)
  refine ⟨hi, fun j hj => ?_, fun j hj hne he => ?_⟩
  · have hle : offset (num * scale) den i ≤ offset (num * scale) den j := by
      by_cases hij : j = i
      · rw [hij]
      · rcases h j hj hij with h | h
        · exact h.le
        · exact h.1.le
    rw [abs_value_sub hd, abs_value_sub hd]
    exact div_le_div_of_nonneg_right (by exact_mod_cast hle) hpos.le
  · rw [abs_value_sub hd, abs_value_sub hd, div_left_inj' hpos.ne', Nat.cast_inj] at he
    rcases h j hj hne with h | h
    · exact absurd he h.ne
    · exact h.2

section

variable {total den k : Nat}

/-- Below the quantity magnitudes are farther the smaller they are. -/
theorem offset_below (hk : units k * den ≤ total) {j : Nat} (hj : j < k) (hd : 0 < den) :
    offset total den k < offset total den j := by
  have hlt : units j * den < units k * den := Nat.mul_lt_mul_of_pos_right (units_strictMono hj) hd
  unfold offset
  omega

/-- Above the quantity magnitudes are farther the greater they are. -/
theorem offset_above (hk : total ≤ units k * den) {j : Nat} (hj : k < j) (hd : 0 < den) :
    offset total den k < offset total den j := by
  have hlt : units k * den < units j * den := Nat.mul_lt_mul_of_pos_right (units_strictMono hj) hd
  unfold offset
  omega

/-- Of the two magnitudes around the quantity, one that is not farther than the other is not farther than any. -/
theorem offset_between (hk : units k * den ≤ total) (hk' : total ≤ units (k + 1) * den) (hd : 0 < den) {i : Nat}
    {P : Prop}
    (hother : ∀ j, (j = k ∨ j = k + 1) → j ≠ i → offset total den i < offset total den j ∨
      offset total den i = offset total den j ∧ P) {j : Nat} (hne : j ≠ i) :
    offset total den i < offset total den j ∨ offset total den i = offset total den j ∧ P := by
  have hside : ∀ l, (l = k ∨ l = k + 1) → offset total den i ≤ offset total den l := by
    intro l hl
    by_cases hli : l = i
    · rw [hli]
    · rcases hother l hl hli with h | h
      · exact h.le
      · exact h.1.le
  rcases Nat.lt_trichotomy j k with hlt | heq | hgt
  · exact .inl ((hside k (.inl rfl)).trans_lt (offset_below hk hlt hd))
  · exact hother j (.inl heq) hne
  · rcases Nat.eq_or_lt_of_le hgt with heq | hlt
    · exact hother j (.inr heq.symm) hne
    · exact .inl ((hside (k + 1) (.inr rfl)).trans_lt (offset_above hk' hlt hd))

end

/-- Where the steps have the width told for a value of `u` units, it lies among them. -/
theorem stepLog_bounds (u : Nat) :
    (stepLog u = 0 ∨ binade ≤ u / twoPow (stepLog u)) ∧ u / twoPow (stepLog u) < 2 * binade := by
  have hpos : 0 < twoPow (stepLog u) := twoPow_pos _
  constructor
  · by_cases hs : stepLog u = 0
    · exact .inl hs
    · have hlog : u.log2 = 52 + stepLog u := by unfold stepLog at *; omega
      have hu : u ≠ 0 := by
        rintro rfl
        exact hs rfl
      have hle : twoPow u.log2 ≤ u := Nat.log2_self_le hu
      rw [hlog, twoPow_add] at hle
      exact .inr ((Nat.le_div_iff_mul_le hpos).2 hle)
  · have hlog : u.log2 + 1 ≤ 53 + stepLog u := by unfold stepLog; omega
    have hlt : u < twoPow (53 + stepLog u) :=
      Nat.lt_of_lt_of_le Nat.lt_log2_self (Nat.pow_le_pow_right (by decide) hlog)
    rw [twoPow_add] at hlt
    exact (Nat.div_lt_iff_lt_mul hpos).2 hlt

theorem le_roundEven (num den : Nat) : num / den ≤ roundEven num den := by
  unfold roundEven
  grind

theorem roundEven_le (num den : Nat) : roundEven num den ≤ num / den + 1 := by
  unfold roundEven
  grind

/-- A binade has an even number of steps, so a magnitude is even with its last bit. -/
theorem even_step (s r : Nat) : Even (s * binade + r) ↔ Even r := by
  have hb : Even (s * binade) := Even.mul_left ⟨twoPow 51, rfl⟩ s
  rw [Nat.even_add]
  exact iff_true_left hb

/-- Rounded in steps of the width told, the quotient becomes one of the magnitudes around it: the nearer one, or the
even one. -/
theorem offset_roundEven {total den s : Nat} (hd : 0 < den)
    (hin : s = 0 ∨ binade ≤ total / (den * twoPow s)) (hlt : total / (den * twoPow s) < 2 * binade) {j : Nat}
    (hne : j ≠ s * binade + roundEven total (den * twoPow s)) :
    let i := s * binade + roundEven total (den * twoPow s)
    offset total den i < offset total den j ∨ offset total den i = offset total den j ∧ Even i := by
  intro i
  have hunit : 0 < den * twoPow s := Nat.mul_pos hd (twoPow_pos s)
  have hsum : den * twoPow s * (total / (den * twoPow s)) + total % (den * twoPow s) = total := Nat.div_add_mod _ _
  have hrem := Nat.mod_lt total hunit
  have hbelow : units (s * binade + total / (den * twoPow s)) * den =
      den * twoPow s * (total / (den * twoPow s)) := by
    rw [units_step hin hlt.le]
    ring
  have habove : units (s * binade + total / (den * twoPow s) + 1) * den =
      den * twoPow s * (total / (den * twoPow s)) + den * twoPow s := by
    rw [Nat.add_assoc, units_step (r := total / (den * twoPow s) + 1) (hin.imp_right Nat.le_succ_of_le) hlt]
    ring
  have hround : i = s * binade + roundEven total (den * twoPow s) := rfl
  have hpar : ∀ r, Even (s * binade + r) ↔ Even r := even_step s
  change j ≠ i at hne
  unfold roundEven at hround
  dsimp only at hround
  clear_value i
  generalize s * binade = base at *
  generalize total / (den * twoPow s) = low at *
  generalize total % (den * twoPow s) = rem at *
  generalize den * twoPow s = unit at *
  have hoff : offset total den (base + low) = rem := by
    unfold offset
    omega
  have hoff' : offset total den (base + low + 1) = unit - rem := by
    unfold offset
    omega
  have heither : i = base + low ∨ i = base + low + 1 := by
    split at hround
    · exact .inl hround
    · split at hround
      · exact .inr hround
      · omega
  refine offset_between (k := base + low) (by omega) (by omega) hd (fun l hl hli => ?_) hne
  split at hround
  · next hnear =>
    obtain rfl := hl.resolve_left (hround ▸ hli)
    rw [hround, hoff, hoff']
    omega
  · split at hround
    · next hfar =>
      obtain rfl := hl.resolve_right (hround ▸ hli)
      rw [hround, ← Nat.add_assoc, hoff, hoff']
      omega
    · -- halfway between two magnitudes, of which one is even
      have hparity : Even i := by
        rw [hround, hpar, Nat.even_iff]
        omega
      refine .inr ⟨?_, hparity⟩
      rcases heither with h | h
      · obtain rfl := hl.resolve_left (h ▸ hli)
        rw [h, hoff, hoff']
        omega
      · obtain rfl := hl.resolve_right (h ▸ hli)
        rw [h, hoff, hoff']
        omega

/-- The quotient rounded to a magnitude is nearest to it. -/
theorem nearestMagnitude_nearest (num : Nat) {den : Nat} (hd : 0 < den) :
    Nearest (num / den) (nearestMagnitude num den) := by
  unfold nearestMagnitude
  dsimp only
  have hbounds := stepLog_bounds (num * scale / den)
  rw [Nat.div_div_eq_div_mul] at hbounds
  obtain ⟨hin, hlt⟩ := hbounds
  have hround := @offset_roundEven (num * scale) den (stepLog (num * scale / den)) hd hin hlt
  generalize stepLog (num * scale / den) = s at *
  by_cases hmax : infinite ≤ s * binade + num * scale / (den * twoPow s)
  · -- past the largest number infinity is the nearest
    have hle : units infinite * den ≤ num * scale := by
      refine (Nat.mul_le_mul_right den (units_strictMono.monotone hmax)).trans ?_
      rw [units_step hin hlt.le, Nat.mul_assoc, Nat.mul_comm (twoPow s)]
      exact Nat.div_mul_le_self _ _
    rw [Nat.min_eq_left (hmax.trans (Nat.add_le_add_left (le_roundEven _ _) _))]
    exact nearest_of_offset hd (Nat.le_refl _) fun j hj hne =>
      .inl (offset_below hle (Nat.lt_of_le_of_ne hj hne) hd)
  · have hle : roundEven (num * scale) (den * twoPow s) ≤ num * scale / (den * twoPow s) + 1 :=
      roundEven_le _ _
    rw [Nat.min_eq_right (by omega)]
    exact nearest_of_offset hd (by omega) fun j _ hne => hround hne

/-- Two magnitudes cannot both be nearest: between them there would be a third, or one of them would be odd. -/
theorem Nearest.unique {q : ℚ} {i j : Nat} (hi : Nearest q i) (hj : Nearest q j) : i = j := by
  wlog hlt : i < j generalizing i j
  · rcases Nat.lt_trichotomy i j with h | h | h
    · exact absurd h hlt
    · exact h
    · exact (this hj hi h).symm
  have heq : |value i - q| = |value j - q| := le_antisymm (hi.nearest j hj.le) (hj.nearest i hi.le)
  have hscale : (0 : ℚ) < scale := by exact_mod_cast scale_pos
  have hmono : ∀ {k l}, k < l → value k < value l := by
    intro k l h
    exact div_lt_div_of_pos_right (by exact_mod_cast units_strictMono h) hscale
  have hmid : q - value i = value j - q := by
    have := hmono hlt
    rcases abs_eq_abs.1 heq with h | h
    · linarith
    · linarith
  by_cases hnext : j = i + 1
  · have hei : Even i := hi.even j hj.le hlt.ne' heq
    have hej : Even j := hj.even i hi.le hlt.ne heq.symm
    rw [hnext, Nat.even_add_one] at hej
    exact absurd hei hej
  · have hl : value i < value (i + 1) := hmono (Nat.lt_succ_self i)
    have hr : value (i + 1) < value j := hmono (by omega)
    have hle := hi.nearest (i + 1) (by have := hj.le; omega)
    have hpos : 0 < q - value i := by linarith
    rw [abs_sub_comm, abs_of_pos hpos] at hle
    rcases le_abs.1 hle with h | h
    · linarith
    · linarith

theorem Rounds.unique {q : ℚ} {x y : Number} (hx : Rounds q x) (hy : Rounds q y) : x = y := by
  obtain ⟨hxs, hxn⟩ := hx
  obtain ⟨hys, hyn⟩ := hy
  have hm := hxn.unique hyn
  unfold isNegative at hxs hys
  unfold magnitude at hm
  rw [decide_eq_false_iff_not, Nat.not_le] at hxs hys
  rw [Nat.mod_eq_of_lt hxs, Nat.mod_eq_of_lt hys] at hm
  cases x
  cases y
  congr 1
  exact UInt64.toNat_inj.1 hm

theorem ofMagnitude_rounds {q : ℚ} {i : Nat} (h : Nearest q i) : Rounds q (ofMagnitude i) := by
  have hmax : infinite < signBit := by decide
  have hi : i < signBit := Nat.lt_of_le_of_lt h.le hmax
  have hbits : (UInt64.ofNat i).toNat = i :=
    UInt64.toNat_ofNat_of_lt' (Nat.lt_trans hi (by decide))
  constructor
  · unfold isNegative ofMagnitude
    rw [hbits, decide_eq_false_iff_not, Nat.not_le]
    exact hi
  · unfold magnitude ofMagnitude
    rw [hbits, Nat.mod_eq_of_lt hi]
    exact h

theorem ofDigits_append (cs ds : List Char) :
    ofDigits (cs ++ ds) = ofDigits cs * 10 ^ ds.length + ofDigits ds := by
  have hfold : ∀ (ds : List Char) (n : Nat),
      ds.foldl (fun n c => 10 * n + (c.toNat - '0'.toNat)) n = n * 10 ^ ds.length + ofDigits ds := by
    intro ds
    induction ds with
    | nil => simp [ofDigits]
    | cons d ds ih =>
      intro n
      unfold ofDigits
      rw [List.foldl_cons, List.foldl_cons, ih, ih, List.length_cons]
      ring
  unfold ofDigits
  rw [List.foldl_append]
  exact hfold ds _

theorem tenPow_pos (n : Nat) : 0 < tenPow n := Nat.pow_pos (by decide)

theorem cast_tenPow (n : Nat) : (tenPow n : ℚ) = 10 ^ n := by
  change ((10 ^ n : Nat) : ℚ) = _
  push_cast
  rfl

/-- The point only shifts what the digits stand for. -/
theorem quantity_eq (whole fraction : List Char) :
    quantity whole fraction = (ofDigits (whole ++ fraction) : Nat) / (tenPow fraction.length : Nat) := by
  rw [cast_tenPow, ofDigits_append, quantity]
  push_cast
  field_simp

/-- Digits are read as the number nearest to what they stand for. -/
theorem read_rounds (whole fraction : List Char) : Rounds (quantity whole fraction) (read whole fraction) := by
  rw [quantity_eq]
  exact ofMagnitude_rounds (nearestMagnitude_nearest _ (tenPow_pos _))

end LoxLang.Number
