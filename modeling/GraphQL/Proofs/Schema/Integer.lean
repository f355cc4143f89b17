/-
GraphQL.Proofs.Schema.Integer — the integers of 32 bits among the values.

  §1 Denotation   — the integer that a value denotes: a word, the double that
                    equals it, or a text of digits.
  §2 Conversions  — guards, comparisons and casts of each form keep that integer.
  §3 Texts        — the text of a word denotes its number.
  §4 Coercion     — the coercion to 32 bits accepts what denotes an integer of
                    the range, and only that.

What a value denotes is told by its digits and by the fields of its bits
(`IntegerText`, `Binary64.toRat`), so that the range has one boundary for all forms.
-/
import GraphQL.Schema.BuiltIn
import GraphQL.Proofs.Number.Denotation
import GraphQL.Proofs.Grammar.Printed
import GraphQL.Proofs.Schema.BuiltIn

namespace GraphQL

/-! ## §1 Denotation -/

/-- An integer of 64 bits, with or without a sign. -/
inductive IntegerWord where
  | signed (n : Int64)
  | unsigned (n : UInt64)

namespace IntegerWord

def value : IntegerWord → Value
  | signed n => .int n
  | unsigned n => .uint n

def number : IntegerWord → Int
  | signed n => n.toInt
  | unsigned n => n.toNat

end IntegerWord

/-- The value denotes the integer: a word its number, a finite double the integer that its
bits denote, a string the integer that fills it. No other value denotes one. -/
inductive Value.DenotesInteger : Value → Int → Prop
  | word (w : IntegerWord) : DenotesInteger w.value w.number
  | float {x : Binary64} {n : Int} : x.exponentField ≠ 2047 → x.toRat = n →
    DenotesInteger (.float x) n
  | string {text : Bytes} {n : Int} : IntegerText text n → DenotesInteger (.string text) n

/-- The range of signed words of 32 bits. -/
def InInt32 (n : Int) : Prop := -2 ^ 31 ≤ n ∧ n ≤ 2 ^ 31 - 1

/-! ## §2 Conversions -/

namespace Scalar

theorem toRat_ofInt_ends :
    (Binary64.ofInt leastInt.toInt).toRat = (-2 ^ 31 : Int) ∧
    (Binary64.ofInt greatestInt.toInt).toRat = (2 ^ 31 - 1 : Int) := by
  simp only [Binary64.toRat_eq_intCast_iff, Binary64.magnitude_eq, Binary64.scaled_eq_natCast_iff]
  exact ⟨⟨2 ^ 31, by decide +kernel⟩, ⟨2 ^ 31 - 1, by decide +kernel⟩⟩

/-- The comparisons with the ends of the range compare the numbers. -/
theorem floatInRange_iff {x : Binary64} (h : x.isFinite = true) :
    (x.less (.ofInt leastInt.toInt) || (Binary64.ofInt greatestInt.toInt).less x) = false ↔
      ((-2 ^ 31 : Int) : ℚ) ≤ x.toRat ∧ x.toRat ≤ ((2 ^ 31 - 1 : Int) : ℚ) := by
  have hleast : (Binary64.ofInt leastInt.toInt).isFinite = true := by decide +kernel
  have hgreatest : (Binary64.ofInt greatestInt.toInt).isFinite = true := by decide +kernel
  rw [Bool.or_eq_false_iff, ← Bool.not_eq_true, ← Bool.not_eq_true, Binary64.less_iff h hleast,
    Binary64.less_iff hgreatest h, toRat_ofInt_ends.1, toRat_ofInt_ends.2, not_lt, not_lt]

/-- The cast of a number that equals a word gives this word. -/
theorem toInt64_of_toRat {x : Binary64} (h : x.isFinite = true) {n : Int64}
    (hn : x.toRat = n.toInt) : x.toInt64 = n := by
  have hlower := n.le_toInt
  have hupper := n.toInt_lt
  rw [Binary64.toInt64, Binary64.truncate?_eq h hn]
  dsimp only
  rw [if_pos ((Numeral.fitsInt64_iff _).2 (by omega)), Int64.ofInt_toInt]

/-- A number of double precision becomes a word exactly if it is an integer of the range. -/
theorem int64?_float {x : Binary64} {n : Int64} :
    int64? (.float x) = some n ↔
      (x.exponentField ≠ 2047 ∧ x.toRat = n.toInt) ∧ InInt32 n.toInt := by
  rw [← Binary64.isFinite_iff, int64?, InInt32]
  constructor
  · intro h
    split at h
    · cases h
    · rename_i hinteger
      split at h
      · cases h
      · rename_i hrange
        obtain ⟨hfinite, hequals⟩ : x.isFinite = true ∧ x.truncated.equals x = true := by
          simpa using hinteger
        obtain ⟨k, hk⟩ := (Binary64.truncated_equals_iff hfinite).1 hequals
        rw [Bool.not_eq_true, floatInRange_iff hfinite, hk, Int.cast_le, Int.cast_le] at hrange
        have hword : (Int64.ofInt k).toInt = k := Int64.toInt_ofInt_of_le (by omega) (by omega)
        obtain rfl : x.toInt64 = n := Option.some.inj h
        rw [toInt64_of_toRat hfinite (n := Int64.ofInt k) (by rw [hword, hk]), hword]
        exact ⟨⟨hfinite, hk⟩, hrange⟩
  · rintro ⟨⟨hfinite, hequal⟩, hrange⟩
    have hinteger := (Binary64.truncated_equals_iff hfinite).2 ⟨_, hequal⟩
    have hends := (floatInRange_iff hfinite).2
      (by rw [hequal, Int.cast_le, Int.cast_le]; exact hrange)
    rw [if_neg (by simp [hfinite, hinteger]), if_neg (by simp [hends]),
      toInt64_of_toRat hfinite hequal]

/-- What becomes a word denotes the integer of the word. -/
theorem denotesInteger_of_int64? {value : Value} {n : Int64} (h : int64? value = some n) :
    value.DenotesInteger n.toInt := by
  cases value with
  | int word =>
    obtain rfl : word = n := Option.some.inj h
    exact .word (.signed word)
  | uint word =>
    rw [int64?] at h
    split at h
    · cases h
    · rename_i hguard
      obtain rfl : word.toInt64 = n := Option.some.inj h
      rw [toInt_toInt64 hguard]
      exact .word (.unsigned word)
  | float x =>
    obtain ⟨⟨hfinite, hequal⟩, -⟩ := int64?_float.1 h
    exact .float hfinite hequal
  | string text => exact .string (Numeral.int64OfText?_eq_some_iff.1 h)
  | _ => cases h

/-- What denotes an integer of the range becomes the word of that integer. -/
theorem int64?_of_denotesInteger {value : Value} {n : Int64} (h : value.DenotesInteger n.toInt)
    (hrange : InInt32 n.toInt) : int64? value = some n := by
  generalize hk : n.toInt = k at h hrange
  cases h with
  | word w =>
    cases w with
    | signed word => exact congrArg some (Int64.toInt_inj.1 hk.symm)
    | unsigned word =>
      have hguard : ¬ greatestInt.toUInt64 < word := by
        have hmost : greatestInt.toUInt64.toNat = 2 ^ 31 - 1 := by decide
        have hle : (word.toNat : Int) ≤ 2 ^ 31 - 1 := hrange.2
        rw [UInt64.lt_iff_toNat_lt, hmost]
        omega
      have hword : word.toInt64 = n := Int64.toInt_inj.1 ((toInt_toInt64 hguard).trans hk.symm)
      exact (if_neg hguard).trans (congrArg some hword)
  | float hfinite hequal =>
    subst hk
    exact int64?_float.2 ⟨⟨hfinite, hequal⟩, hrange⟩
  | string htext =>
    subst hk
    exact Numeral.int64OfText?_eq_some_iff.2 htext

theorem denotesInteger_string_iff {text : Bytes} {n : Int} :
    (Value.string text).DenotesInteger n ↔ IntegerText text n := by
  refine ⟨fun h => ?_, .string⟩
  generalize hvalue : Value.string text = value at h
  cases h with
  | word w => cases w <;> cases hvalue
  | float => cases hvalue
  | string htext =>
    cases hvalue
    exact htext

/-- The integers of the range pass, as signed words. -/
theorem int?_eq_some_iff {value result : Value} :
    int? value = some result ↔
      ∃ n : Int64, result = .int n ∧ value.DenotesInteger n.toInt ∧ InInt32 n.toInt := by
  rw [int?_eq_some]
  constructor
  · rintro ⟨n, hn, hrange, rfl⟩
    exact ⟨n, rfl, denotesInteger_of_int64? hn, hrange⟩
  · rintro ⟨n, rfl, hdenotes, hrange⟩
    exact ⟨n, int64?_of_denotesInteger hdenotes hrange, hrange, rfl⟩

end Scalar

/-! ## §3 Texts -/

/-- The decimal text of an integer denotes it. -/
theorem integerText_decimalInt (n : Int) : IntegerText (decimalInt n) n := by
  have htext : decimalInt n =
      (if decide (n < 0) then [ascii '-'] else []) ++ decimal n.natAbs := by
    simp only [decimalInt, decide_eq_true_eq]
    split <;> rfl
  have hvalue : signedValue (decide (n < 0)) (decimal n.natAbs) = n := by
    simp only [signedValue, ← digitsValue_eq_placeValue, digitsValue_decimal, decide_eq_true_eq]
    split <;> omega
  have hwritten := IntegerText.intro (decide (n < 0)) (isDigits_decimal n.natAbs)
  rwa [← htext, hvalue] at hwritten

/-- A text denotes one integer at most. -/
theorem IntegerText.unique {text : Bytes} {m n : Int} (hm : IntegerText text m)
    (hn : IntegerText text n) : m = n :=
  (Prod.mk.inj (Option.some.inj ((Numeral.integerPrefix?_eq_some_iff.2 hm).symm.trans
    (Numeral.integerPrefix?_eq_some_iff.2 hn)))).1

/-- The text of a word as an identifier is its number in decimal. -/
theorem Scalar.id?_word (w : IntegerWord) :
    id? w.value = some (.string (decimalInt w.number)) := by
  cases w with
  | signed n => rfl
  | unsigned n =>
    have hnonneg : ¬((n.toNat : Int) < 0) := by omega
    have htext : decimalInt (n.toNat : Int) = decimal n.toNat := if_neg hnonneg
    exact congrArg (fun text => some (Value.string text)) htext.symm

/-! ## §4 Coercion -/

/-- The coercion to 32 bits gives exactly the integer of the range that the value denotes, in
whichever form, and refuses all other values. The identifier of a word is a text that it takes
back to the number of the word, where that is in the range, and refuses otherwise; and two
words have one identifier exactly if they have one number. -/
theorem Scalar.int?_exact :
    (∀ value result, int? value = some result ↔
      ∃ n : Int64, result = .int n ∧ value.DenotesInteger n.toInt ∧ InInt32 n.toInt) ∧
    (∀ w : IntegerWord, ∃ text, id? w.value = some (.string text) ∧
      ∀ result, int? (.string text) = some result ↔
        ∃ n : Int64, result = .int n ∧ n.toInt = w.number ∧ InInt32 w.number) ∧
    (∀ v w : IntegerWord, id? v.value = id? w.value ↔ v.number = w.number) := by
  refine ⟨fun _ _ => int?_eq_some_iff, fun w => ⟨_, id?_word w, fun result => ?_⟩, fun v w => ?_⟩
  · have hword := integerText_decimalInt w.number
    simp only [int?_eq_some_iff, denotesInteger_string_iff]
    constructor
    · rintro ⟨n, rfl, hdenotes, hrange⟩
      have hn := hdenotes.unique hword
      exact ⟨n, rfl, hn, hn ▸ hrange⟩
    · rintro ⟨n, rfl, hn, hrange⟩
      refine ⟨n, rfl, ?_, ?_⟩ <;> rw [hn]
      exacts [hword, hrange]
  · rw [id?_word, id?_word]
    constructor
    · intro h
      have htext : decimalInt v.number = decimalInt w.number :=
        Value.string.inj (Option.some.inj h)
      exact (integerText_decimalInt v.number).unique
        (htext ▸ integerText_decimalInt w.number)
    · intro h
      rw [h]

/-- The magnitude of the range's lower end is past its upper end. -/
example : Scalar.int? (.string (utf8 "2147483648")) = none ∧
    Scalar.int? (.string (utf8 "-0002147483648")) = some (.int (-2147483648)) := by
  constructor <;> rfl

end GraphQL
