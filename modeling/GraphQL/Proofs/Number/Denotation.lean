/-
GraphQL.Proofs.Number.Denotation — the numbers that digits and bits denote.

  §1 Digits   — decimal digits by their places.
  §2 Texts    — texts that are an optional minus sign and digits.
  §3 Doubles  — a bit pattern as a sign, an exponent and a fraction, and the
                rational number that these denote.
  §4 Order    — comparisons by the bits compare the rational numbers.
  §5 Integers — which doubles equal an integer, and which one.

Each number is told here without reference to how it is computed: digits by the
powers of ten of their places, a double by the three fields of its bits.
-/
import GraphQL.Proofs.Grammar.Token
import Mathlib.Algebra.Order.Field.Power
import Mathlib.Data.List.TakeWhile
import Mathlib.Data.Nat.Digits.Defs
import Mathlib.Data.Rat.Cast.Order
import Mathlib.Order.Monotone.Basic
import Mathlib.Tactic.Linarith
import Mathlib.Tactic.LinearCombination
import Mathlib.Tactic.Positivity
import Mathlib.Tactic.Ring

namespace GraphQL

/-! ## §1 Digits -/

/-- The number that digits denote by their places: the last of them counts ones, the one
before it tens. -/
def placeValue (digits : Bytes) : Nat := Nat.ofDigits 10 (digits.reverse.map digitValue)

theorem digitsValue_eq_placeValue (digits : Bytes) : digitsValue digits = placeValue digits := by
  induction digits using List.reverseRecOn with
  | nil => rfl
  | append_singleton before last ih =>
    have hlast : digitsValue (before ++ [last]) = digitsValue before * 10 + digitValue last :=
      List.foldl_concat ..
    rw [hlast, ih, placeValue, placeValue, List.reverse_concat, List.map_cons, Nat.ofDigits_cons]
    ring

/-- The integer of a sign and of digits. -/
def signedValue (negative : Bool) (digits : Bytes) : Int :=
  if negative then -(placeValue digits : Int) else placeValue digits

theorem Numeral.wholeValue_eq (n : Numeral) : n.wholeValue = signedValue n.negative n.whole := by
  rw [wholeValue, signedValue, digitsValue_eq_placeValue]

/-! ## §2 Texts -/

/-- The text is an optional minus sign and one digit or more, which denote the integer. -/
inductive IntegerText : Bytes → Int → Prop
  | intro (negative : Bool) {digits : Bytes} : IsDigits digits →
    IntegerText ((if negative then [ascii '-'] else []) ++ digits) (signedValue negative digits)

namespace Numeral

/-- A text that is split at its sign is put together again. -/
theorem eq_of_splitSign {text digits : Bytes} {negative : Bool}
    (h : splitSign text = (negative, digits)) :
    text = (if negative then [ascii '-'] else []) ++ digits := by
  unfold splitSign at h
  split at h
  · cases h
    rfl
  · split at h
    · rename_i hminus
      cases h
      rw [hminus]
      rfl
    · cases h
      rfl

/-- No digit is a minus sign. -/
theorem head?_ne_minus {digits : Bytes} (h : IsDigits digits) :
    digits.head? ≠ some (ascii '-') := by
  obtain ⟨first, rest, rfl⟩ := List.exists_cons_of_ne_nil h.1
  intro hhead
  cases hhead
  exact absurd (h.2 _ List.mem_cons_self) (by decide)

theorem splitSign_append {digits : Bytes} (negative : Bool) (h : IsDigits digits) :
    splitSign ((if negative then [ascii '-'] else []) ++ digits) = (negative, digits) := by
  cases negative with
  | true => rfl
  | false =>
    obtain ⟨first, rest, rfl⟩ := List.exists_cons_of_ne_nil h.1
    have hfirst : first ≠ ascii '-' := fun hfirst => head?_ne_minus h (congrArg some hfirst)
    exact if_neg hfirst

/-- A text with an integer in front and nothing after it is the text of that integer. -/
theorem integerPrefix?_eq_some_iff {text : Bytes} {n : Int} :
    integerPrefix? text = some (n, []) ↔ IntegerText text n := by
  constructor
  · intro h
    unfold integerPrefix? at h
    cases hsplit : splitSign text with
    | mk negative unsigned =>
      rw [eq_of_splitSign hsplit]
      simp only [hsplit] at h
      split at h
      · cases h
      · rename_i hdigits
        obtain ⟨rfl, hrest⟩ := Prod.mk.inj (Option.some.inj h)
        have hall := List.dropWhile_eq_nil_iff.1 hrest
        rw [List.takeWhile_eq_self_iff.2 hall] at hdigits ⊢
        rw [digitsValue_eq_placeValue]
        exact .intro negative ⟨by simpa using hdigits, hall⟩
  · rintro ⟨negative, hdigits⟩
    unfold integerPrefix?
    rw [splitSign_append negative hdigits]
    dsimp only
    rw [List.takeWhile_eq_self_iff.2 hdigits.2, List.dropWhile_eq_nil_iff.2 hdigits.2,
      if_neg (by simpa using hdigits.1), digitsValue_eq_placeValue]
    rfl

theorem fitsInt64_iff (n : Int) : fitsInt64 n = true ↔ -2 ^ 63 ≤ n ∧ n ≤ 2 ^ 63 - 1 := by
  simp only [fitsInt64, Bool.and_eq_true, decide_eq_true_eq]
  omega

/-- The words that fill a text are those that it is the text of. -/
theorem int64OfText?_eq_some_iff {text : Bytes} {n : Int64} :
    int64OfText? text = some n ↔ IntegerText text n.toInt := by
  rw [← integerPrefix?_eq_some_iff]
  unfold int64OfText?
  constructor
  · intro h
    split at h
    · cases h
    · rename_i k rest hfront
      split at h
      · cases h
      · rename_i hfits
        rw [Bool.not_eq_true, Bool.not_eq_false', fitsInt64_iff] at hfits
        split at h
        · cases h
        · rename_i hwhole
          cases h
          obtain ⟨-, hrest⟩ : text ≠ [] ∧ rest = [] := by simpa using hwhole
          rw [hfront, hrest, Int64.toInt_ofInt_of_le (by omega) (by omega)]
  · intro hfront
    have hlower := n.le_toInt
    have hupper := n.toInt_lt
    have hfits : fitsInt64 n.toInt = true := (fitsInt64_iff _).2 (by omega)
    have htext : text ≠ [] := by
      rintro rfl
      cases hfront
    rw [hfront]
    simp [hfits, htext]

end Numeral

/-! ## §3 Doubles -/

namespace Binary64

/-- The sign is the bit of the greatest weight. -/
def signField (x : Binary64) : Nat := x.bits.toNat / 2 ^ 63

/-- The eleven bits after the sign. -/
def exponentField (x : Binary64) : Nat := x.bits.toNat / 2 ^ 52 % 2 ^ 11

/-- The last fifty-two bits. -/
def fractionField (x : Binary64) : Nat := x.bits.toNat % 2 ^ 52

/-- The magnitude that the bits of a finite number denote: one and the fraction, scaled by
the power of two of the exponent, or the fraction alone at the least exponent. -/
def magnitude (x : Binary64) : ℚ :=
  if x.exponentField = 0 then (x.fractionField : ℚ) / 2 ^ 52 * 2 ^ (-1022 : ℤ)
  else (1 + (x.fractionField : ℚ) / 2 ^ 52) * 2 ^ ((x.exponentField : ℤ) - 1023)

/-- The rational number that the bits of a finite number denote. -/
def toRat (x : Binary64) : ℚ := (-1) ^ x.signField * x.magnitude

theorem biasedExponent_eq (x : Binary64) : x.biasedExponent = x.exponentField := by
  have hlt := x.bits.toNat_lt
  unfold biasedExponent magnitudeBits exponentField signWeight exponentWeight
  omega

theorem fraction_eq (x : Binary64) : x.magnitudeBits % exponentWeight = x.fractionField := by
  unfold magnitudeBits fractionField signWeight exponentWeight
  omega

theorem signField_eq (x : Binary64) : x.signField = if x.negative then 1 else 0 := by
  have hlt := x.bits.toNat_lt
  unfold signField negative signWeight
  simp only [decide_eq_true_eq]
  split <;> omega

theorem isFinite_iff (x : Binary64) : x.isFinite = true ↔ x.exponentField ≠ 2047 := by
  have hlt : x.exponentField < 2 ^ 11 := Nat.mod_lt _ (by decide)
  rw [isFinite, biasedExponent_eq, decide_eq_true_eq]
  omega

theorem magnitudeBits_eq {x : Binary64} (h : x.exponentField = 0) :
    x.magnitudeBits = x.fractionField := by
  have hexponent : x.magnitudeBits / exponentWeight = 0 := x.biasedExponent_eq.trans h
  rw [← fraction_eq, Nat.mod_eq_of_lt]
  exact (Nat.div_eq_zero_iff_lt (by decide)).1 hexponent

/-- The last bit of a significand counts for this much less than the first. -/
theorem unit_eq (exponent : ℤ) : (2 : ℚ) ^ (exponent - 52) = 2 ^ exponent / 2 ^ 52 := by
  rw [zpow_sub₀ two_ne_zero]
  rfl

/-- The magnitude is the significand, scaled so that its last bit counts. -/
theorem magnitude_eq (x : Binary64) : x.magnitude = x.significand * 2 ^ x.scale := by
  unfold magnitude significand scale
  rw [biasedExponent_eq, fraction_eq]
  split
  · rename_i hzero
    have hscale : ((max x.exponentField 1 : ℕ) : ℤ) - 1075 = -1022 - 52 := by omega
    rw [magnitudeBits_eq hzero, hscale, unit_eq, div_mul_eq_mul_div, mul_div_assoc]
  · have hscale : ((max x.exponentField 1 : ℕ) : ℤ) - 1075 =
        (x.exponentField : ℤ) - 1023 - 52 := by omega
    rw [hscale, unit_eq, exponentWeight]
    generalize (2 : ℚ) ^ ((x.exponentField : ℤ) - 1023) = power
    push_cast
    ring

/-! ## §4 Order -/

/-- The magnitude by the bits below the sign. -/
def magnitudeOf (bits : ℕ) : ℚ :=
  (if bits / exponentWeight = 0 then bits else bits % exponentWeight + exponentWeight : ℕ) *
    2 ^ ((max (bits / exponentWeight) 1 : ℕ) - 1075 : ℤ)

theorem magnitudeOf_bits (x : Binary64) : magnitudeOf x.magnitudeBits = x.magnitude :=
  x.magnitude_eq.symm

/-- One bit more is one unit of the last place more, also where it is carried into the exponent. -/
theorem magnitudeOf_succ (bits : ℕ) : magnitudeOf (bits + 1) =
    magnitudeOf bits + 2 ^ ((max (bits / exponentWeight) 1 : ℕ) - 1075 : ℤ) := by
  have hdiv := Nat.div_add_mod bits exponentWeight
  have hmod := Nat.mod_lt bits (show 0 < exponentWeight by decide)
  by_cases hcarry : bits % exponentWeight + 1 = exponentWeight
  · have hbits : bits + 1 = exponentWeight * (bits / exponentWeight + 1) := by
      rw [Nat.mul_add, Nat.mul_one]
      omega
    have hnext : (bits + 1) / exponentWeight = bits / exponentWeight + 1 := by
      rw [hbits, Nat.mul_div_cancel_left _ (by decide)]
    have hnone : (bits + 1) % exponentWeight = 0 := by rw [hbits, Nat.mul_mod_right]
    simp only [magnitudeOf, hnext, hnone, Nat.add_one_ne_zero, if_false, Nat.zero_add]
    by_cases hzero : bits / exponentWeight = 0
    · have hlow : bits + 1 = exponentWeight := by rw [hbits, hzero, Nat.zero_add, Nat.mul_one]
      rw [hzero, if_pos rfl, ← hlow, Nat.zero_add, Nat.max_self, Nat.max_eq_right (Nat.zero_le 1)]
      generalize (2 : ℚ) ^ ((1 : ℕ) - 1075 : ℤ) = unit
      push_cast
      ring
    · have hhigh : bits % exponentWeight + exponentWeight + 1 = exponentWeight * 2 := by omega
      have hscale (e : ℕ) (he : ¬ e = 0) :
          ((max (e + 1) 1 : ℕ) - 1075 : ℤ) = ((max e 1 : ℕ) - 1075 : ℤ) + 1 := by omega
      have hsignificand : ((bits % exponentWeight + exponentWeight : ℕ) : ℚ) + 1 =
          exponentWeight * 2 := by exact_mod_cast hhigh
      rw [if_neg hzero, hscale _ hzero, zpow_add_one₀ two_ne_zero]
      linear_combination -(2 : ℚ) ^ ((max (bits / exponentWeight) 1 : ℕ) - 1075 : ℤ) * hsignificand
  · have hroom : bits % exponentWeight + 1 < exponentWeight := Nat.lt_of_le_of_ne hmod hcarry
    have hnext : (bits + 1) / exponentWeight = bits / exponentWeight := by
      conv_lhs => rw [← hdiv, Nat.add_assoc, Nat.mul_add_div (by decide), Nat.div_eq_of_lt hroom]
      exact Nat.add_zero _
    have hrest : (bits + 1) % exponentWeight = bits % exponentWeight + 1 := by
      rw [Nat.add_mod, Nat.mod_eq_of_lt (show 1 < exponentWeight by decide),
        Nat.mod_eq_of_lt hroom]
    simp only [magnitudeOf, hnext, hrest]
    split <;> push_cast <;> ring

theorem strictMono_magnitudeOf : StrictMono magnitudeOf :=
  strictMono_nat_of_lt_succ fun bits => by
    rw [magnitudeOf_succ]
    exact lt_add_of_pos_right _ (by positivity)

theorem magnitudeOf_zero : magnitudeOf 0 = 0 := by simp [magnitudeOf]

theorem toRat_eq (x : Binary64) : x.toRat =
    if x.negative then -magnitudeOf x.magnitudeBits else magnitudeOf x.magnitudeBits := by
  rw [toRat, signField_eq, magnitudeOf_bits]
  split <;> simp

/-- The order of ranks is the order of the rational numbers. -/
theorem rank_lt_iff (x y : Binary64) : x.rank < y.rank ↔ x.toRat < y.toRat := by
  have hzero : ∀ bits, 0 ≤ magnitudeOf bits := fun bits =>
    magnitudeOf_zero ▸ strictMono_magnitudeOf.monotone (Nat.zero_le bits)
  have hpositive : ∀ bits, 0 < magnitudeOf bits ↔ 0 < bits := fun bits => by
    rw [← strictMono_magnitudeOf.lt_iff_lt (a := 0), magnitudeOf_zero]
  have hx := hzero x.magnitudeBits
  have hy := hzero y.magnitudeBits
  rw [toRat_eq, toRat_eq, rank, rank]
  cases x.negative <;> cases y.negative <;> simp only [Bool.false_eq_true, if_false, if_true]
  · rw [strictMono_magnitudeOf.lt_iff_lt, Nat.cast_lt]
  · constructor
    · intro h
      omega
    · intro h
      linarith
  · -- A negative number is less than a positive one unless both are zeros.
    rcases Nat.eq_zero_or_pos x.magnitudeBits with hxbits | hxbits
    · rw [hxbits, magnitudeOf_zero, neg_zero, hpositive]
      omega
    · have := (hpositive _).2 hxbits
      constructor
      · intro _
        linarith
      · intro _
        omega
  · rw [neg_lt_neg_iff, neg_lt_neg_iff, strictMono_magnitudeOf.lt_iff_lt, Nat.cast_lt]

theorem isNaN_of_isFinite {x : Binary64} (h : x.isFinite = true) : x.isNaN = false := by
  rw [isFinite, decide_eq_true_eq] at h
  rw [isNaN, Bool.and_eq_false_iff, beq_eq_false_iff_ne]
  exact .inl (Nat.ne_of_lt h)

theorem less_iff {x y : Binary64} (hx : x.isFinite = true) (hy : y.isFinite = true) :
    x.less y = true ↔ x.toRat < y.toRat := by
  simp [less, isNaN_of_isFinite hx, isNaN_of_isFinite hy, rank_lt_iff]

/-! ## §5 Integers -/

/-- A natural number scaled by a power of two is a natural number exactly if the power that
it is divided by divides it. -/
theorem scaled_eq_natCast_iff (significand : ℕ) (scale : ℤ) (n : ℕ) :
    (significand : ℚ) * 2 ^ scale = n ↔
      significand % 2 ^ (-scale).toNat = 0 ∧
        significand / 2 ^ (-scale).toNat * 2 ^ scale.toNat = n := by
  rcases le_total 0 scale with hscale | hscale
  · obtain ⟨places, rfl⟩ := Int.eq_ofNat_of_zero_le hscale
    have hunit : (-(places : ℤ)).toNat = 0 := by omega
    rw [hunit, zpow_natCast, Int.toNat_natCast, pow_zero, Nat.mod_one, Nat.div_one]
    simp only [true_and]
    exact_mod_cast Iff.rfl
  · obtain ⟨places, rfl⟩ := Int.exists_eq_neg_ofNat hscale
    have hpositive : 0 < 2 ^ places := Nat.two_pow_pos places
    have hunit : (-(places : ℤ)).toNat = 0 := by omega
    rw [hunit, neg_neg, Int.toNat_natCast, zpow_neg, zpow_natCast, pow_zero, mul_one,
      ← div_eq_mul_inv, div_eq_iff (by positivity)]
    have hcast : (significand : ℚ) = n * 2 ^ places ↔ significand = n * 2 ^ places := by
      exact_mod_cast Iff.rfl
    rw [hcast]
    constructor
    · rintro rfl
      exact ⟨Nat.mul_mod_left .., Nat.mul_div_cancel _ hpositive⟩
    · rintro ⟨hmod, rfl⟩
      exact (Nat.div_mul_cancel (Nat.dvd_of_mod_eq_zero hmod)).symm

theorem magnitude_nonneg (x : Binary64) : 0 ≤ x.magnitude := by
  rw [magnitude_eq]
  positivity

/-- A double equals an integer exactly if its magnitude is the integer without its sign. -/
theorem toRat_eq_intCast_iff {x : Binary64} {n : Int} :
    x.toRat = n ↔ ∃ k : ℕ, x.magnitude = k ∧ n = if x.negative then -(k : Int) else k := by
  have hnonneg := x.magnitude_nonneg
  rw [toRat, signField_eq]
  constructor
  · intro h
    split at h
    · rename_i hnegative
      have hmagnitude : x.magnitude = ((-n : Int) : ℚ) := by push_cast; linarith
      obtain ⟨k, hk⟩ := Int.eq_ofNat_of_zero_le (by exact_mod_cast hmagnitude ▸ hnonneg : 0 ≤ -n)
      exact ⟨k, by rw [hmagnitude, hk]; rfl, by rw [if_pos hnegative, ← hk, neg_neg]⟩
    · rename_i hpositive
      have hmagnitude : x.magnitude = (n : ℚ) := by linarith
      obtain ⟨k, rfl⟩ := Int.eq_ofNat_of_zero_le (by exact_mod_cast hmagnitude ▸ hnonneg : 0 ≤ n)
      exact ⟨k, hmagnitude, by rw [if_neg hpositive]⟩
  · rintro ⟨k, hk, rfl⟩
    rw [hk]
    split <;> simp

/-- A finite number without fraction bits below its ones is its significand in whole units. -/
theorem exists_toRat_eq_iff (x : Binary64) :
    (∃ n : Int, x.toRat = n) ↔ x.significand % 2 ^ (-x.scale).toNat = 0 := by
  simp only [toRat_eq_intCast_iff, magnitude_eq, scaled_eq_natCast_iff]
  constructor
  · rintro ⟨_, _, ⟨hmod, _⟩, _⟩
    exact hmod
  · exact fun hmod => ⟨_, _, ⟨hmod, rfl⟩, rfl⟩

theorem magnitudeBits_lt (x : Binary64) : x.magnitudeBits < signWeight := Nat.mod_lt _ (by decide)

theorem parts_ofParts (negative : Bool) {bits : ℕ} (h : bits < signWeight) :
    (ofParts negative bits).negative = negative ∧ (ofParts negative bits).magnitudeBits = bits := by
  have hword : (ofParts negative bits).bits.toNat = bits + if negative then signWeight else 0 := by
    unfold signWeight at h
    rw [ofParts, UInt64.toNat_ofNat', Nat.mod_eq_of_lt]
    unfold signWeight
    split <;> omega
  rw [Binary64.negative, magnitudeBits, hword]
  unfold signWeight at *
  cases negative <;> simp <;> omega

/-- Cutting off the fraction keeps the bits of a number exactly if it has no fraction. -/
theorem magnitudeBits_truncated_eq_iff (x : Binary64) :
    x.truncated.magnitudeBits = x.magnitudeBits ↔ x.significand % 2 ^ (-x.scale).toNat = 0 := by
  have hlt := x.magnitudeBits_lt
  have hdiv := Nat.div_add_mod x.magnitudeBits exponentWeight
  have hmod := Nat.mod_lt x.magnitudeBits (show 0 < exponentWeight by decide)
  unfold truncated significand scale
  split
  · rename_i hsmall
    -- All bits of the significand stand below the ones.
    have hplaces : 53 ≤ (-((max x.biasedExponent 1 : ℕ) - 1075 : ℤ)).toNat := by omega
    have hunit : 2 ^ 53 ≤ 2 ^ (-((max x.biasedExponent 1 : ℕ) - 1075 : ℤ)).toNat :=
      Nat.pow_le_pow_right (by decide) hplaces
    rw [(parts_ofParts _ (by decide)).2]
    unfold biasedExponent exponentWeight at *
    rw [Nat.mod_eq_of_lt (by split <;> omega)]
    split <;> omega
  · rename_i hlarge
    have hscale : (-((max x.biasedExponent 1 : ℕ) - 1075 : ℤ)).toNat = 1075 - x.biasedExponent := by
      omega
    have hle := Nat.div_mul_le_self x.magnitudeBits (2 ^ (1075 - x.biasedExponent))
    have hdvd : 2 ^ (1075 - x.biasedExponent) ∣ exponentWeight :=
      Nat.pow_dvd_pow 2 (show 1075 - x.biasedExponent ≤ 52 by omega)
    have hsame : (x.magnitudeBits % exponentWeight + exponentWeight) %
        2 ^ (1075 - x.biasedExponent) = x.magnitudeBits % 2 ^ (1075 - x.biasedExponent) := by
      rw [Nat.add_mod, Nat.mod_mod_of_dvd _ hdvd, Nat.mod_eq_zero_of_dvd hdvd, Nat.add_zero,
        Nat.mod_mod]
    rw [if_neg (by omega), hscale, hsame]
    simp only [Nat.pow_eq]
    rw [(parts_ofParts _ (Nat.lt_of_le_of_lt hle hlt)).2, ← Nat.dvd_iff_mod_eq_zero]
    exact (Nat.dvd_iff_div_mul_eq _ _).symm

theorem negative_truncated (x : Binary64) : x.truncated.negative = x.negative := by
  have hle := Nat.div_mul_le_self x.magnitudeBits (Nat.pow 2 (1075 - x.biasedExponent))
  unfold truncated
  split
  · exact (parts_ofParts _ (by decide)).1
  · exact (parts_ofParts _ (Nat.lt_of_le_of_lt hle x.magnitudeBits_lt)).1

theorem isFinite_truncated {x : Binary64} (h : x.isFinite = true) :
    x.truncated.isFinite = true := by
  have hle := Nat.div_mul_le_self x.magnitudeBits (Nat.pow 2 (1075 - x.biasedExponent))
  have hbits : x.truncated.magnitudeBits ≤ x.magnitudeBits := by
    unfold truncated
    split
    · rw [(parts_ofParts _ (by decide)).2]
      exact Nat.zero_le _
    · rw [(parts_ofParts _ (Nat.lt_of_le_of_lt hle x.magnitudeBits_lt)).2]
      exact hle
  rw [isFinite, decide_eq_true_eq] at h ⊢
  exact Nat.lt_of_le_of_lt (Nat.div_le_div_right hbits) h

/-- A finite number equals itself without fraction exactly if the rational number that its bits
denote is an integer. -/
theorem truncated_equals_iff {x : Binary64} (h : x.isFinite = true) :
    x.truncated.equals x = true ↔ ∃ n : Int, x.toRat = n := by
  have hrank : x.truncated.rank = x.rank ↔ x.truncated.magnitudeBits = x.magnitudeBits := by
    rw [rank, rank, negative_truncated]
    split <;> omega
  rw [exists_toRat_eq_iff, ← magnitudeBits_truncated_eq_iff, ← hrank]
  simp [equals, isNaN_of_isFinite h, isNaN_of_isFinite (isFinite_truncated h)]

/-- The integer part of a number that equals an integer is this integer. -/
theorem truncate?_eq {x : Binary64} (h : x.isFinite = true) {n : Int} (hn : x.toRat = n) :
    x.truncate? = some n := by
  obtain ⟨k, hk, rfl⟩ := toRat_eq_intCast_iff.1 hn
  rw [magnitude_eq, scaled_eq_natCast_iff] at hk
  obtain ⟨hmod, rfl⟩ := hk
  obtain ⟨units, hunits⟩ := Nat.dvd_of_mod_eq_zero hmod
  have hpositive : 0 < 2 ^ (-x.scale).toNat := Nat.two_pow_pos _
  have hmagnitude : x.significand * 2 ^ x.scale.toNat / 2 ^ (-x.scale).toNat =
      x.significand / 2 ^ (-x.scale).toNat * 2 ^ x.scale.toNat := by
    rw [hunits, Nat.mul_assoc, Nat.mul_div_cancel_left _ hpositive,
      Nat.mul_div_cancel_left _ hpositive]
  have hpower (places : ℕ) : Nat.pow 2 places = 2 ^ places := rfl
  simp only [truncate?, h, hpower, hmagnitude, Bool.not_true, Bool.false_eq_true, if_false]

end Binary64

end GraphQL
