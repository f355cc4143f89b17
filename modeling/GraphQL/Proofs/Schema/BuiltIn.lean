/-
GraphQL.Proofs.Schema.BuiltIn — the built-in scalars keep what they give.

  §1 Numbers  — integers of 64 bits become finite numbers.
  §2 Scalars  — what a built-in scalar gives, it gives again for itself.

A result may have another form than the input: a text that denotes an integer
becomes this integer, an integer becomes a text or a number of double precision.
The result has the form that the scalar takes unchanged.
-/
import GraphQL.Proofs.Input.Conforms
import GraphQL.Proofs.Number.Denotation

namespace GraphQL

/-! ## §1 Numbers -/

namespace Binary64

/-- Bits below those of infinity are those of a finite number. -/
theorem isFinite_ofParts (negative : Bool) {magnitude : Nat} (h : magnitude < infinityBits) :
    (ofParts negative magnitude).isFinite = true := by
  have hbits : (ofParts negative magnitude).magnitudeBits = magnitude :=
    (parts_ofParts negative (Nat.lt_trans h (by decide))).2
  rw [isFinite, biasedExponent, hbits, decide_eq_true_iff]
  rw [infinityBits] at h
  exact Nat.div_lt_of_lt_mul (by rwa [Nat.mul_comm])

theorem roundQuotient_le (numerator denominator : Nat) :
    roundQuotient numerator denominator ≤ numerator / denominator + 1 := by
  unfold roundQuotient
  dsimp only
  split
  · exact Nat.le_refl _
  · exact Nat.le_succ _

/-- The exponent of a positive integer is that of its leading bit. -/
theorem binaryExponent_one {n : Nat} (h : n ≠ 0) : binaryExponent n 1 = n.log2 := by
  have hlog : (1 : Nat).log2 = 0 := by decide
  have hle : Nat.pow 2 n.log2 ≤ n := Nat.log2_self_le h
  unfold binaryExponent
  simp only [hlog, Int.ofNat_zero, Int.sub_zero, Int.toNat_natCast, Nat.one_mul]
  rw [if_pos]
  exact Nat.le_trans hle (Nat.le_mul_of_pos_right n (Nat.pow_pos (by decide)))

/-- An integer of 64 bits is nearest to a finite number: its significand has at
most 53 bits, scaled by less than the twelfth power of two. -/
theorem nearestBits_lt {n : Nat} (h : n ≠ 0) (hlt : n < 18446744073709551616) :
    nearestBits n 1 < infinityBits := by
  have hlog : n.log2 < 64 := (Nat.log2_lt h).2 hlt
  unfold nearestBits
  rw [binaryExponent_one h]
  generalize hscale : max ((n.log2 : Int) - 52) (-1074) = scale
  dsimp only
  -- Either power is one, and the two balance the leading bit of the integer.
  have hsum : n.log2 + 1 + (-scale).toNat = 53 + scale.toNat := by omega
  have hquotient : n * Nat.pow 2 (-scale).toNat / (1 * Nat.pow 2 scale.toNat) < Nat.pow 2 53 := by
    rw [Nat.one_mul]
    apply Nat.div_lt_of_lt_mul
    calc n * Nat.pow 2 (-scale).toNat
        < Nat.pow 2 (n.log2 + 1) * Nat.pow 2 (-scale).toNat :=
          Nat.mul_lt_mul_of_pos_right Nat.lt_log2_self (Nat.pow_pos (by decide))
      _ = Nat.pow 2 (n.log2 + 1 + (-scale).toNat) := (Nat.pow_add 2 _ _).symm
      _ = Nat.pow 2 (scale.toNat + 53) := by rw [hsum, Nat.add_comm]
      _ = Nat.pow 2 scale.toNat * Nat.pow 2 53 := Nat.pow_add 2 _ _
  have hsignificand := roundQuotient_le (n * Nat.pow 2 (-scale).toNat) (1 * Nat.pow 2 scale.toNat)
  have hplaces : (scale + 1074).toNat ≤ 1085 := by omega
  have hweight := Nat.mul_le_mul_right exponentWeight hplaces
  rw [show Nat.pow 2 53 = 9007199254740992 from rfl] at hquotient
  unfold infinityBits exponentWeight at *
  omega

/-- Integers of 64 bits, signed or not, become finite numbers. -/
theorem isFinite_ofInt {n : Int} (h : n.natAbs < 18446744073709551616) :
    (ofInt n).isFinite = true := by
  unfold ofInt ofQuotient
  split
  · exact isFinite_ofParts _ (by decide)
  · rename_i hne
    have hlt := nearestBits_lt hne h
    rw [Nat.min_eq_left (Nat.le_of_lt hlt)]
    exact isFinite_ofParts _ hlt

end Binary64

/-! ## §2 Scalars -/

namespace Scalar

theorem toInt_leastInt : leastInt.toInt = -2 ^ 31 := by decide

theorem toInt_greatestInt : greatestInt.toInt = 2 ^ 31 - 1 := by decide

/-- The check of the range is one of numbers. -/
theorem inRange_iff (n : Int64) : (n < leastInt || greatestInt < n) = false ↔
    -2 ^ 31 ≤ n.toInt ∧ n.toInt ≤ 2 ^ 31 - 1 := by
  rw [Bool.or_eq_false_iff, decide_eq_false_iff_not, decide_eq_false_iff_not,
    Int64.lt_iff_toInt_lt, Int64.lt_iff_toInt_lt, toInt_leastInt, toInt_greatestInt, not_lt, not_lt]

/-- An unsigned word that passes the guard keeps its number when it gets a sign. -/
theorem toInt_toInt64 {n : UInt64} (h : ¬ greatestInt.toUInt64 < n) :
    n.toInt64.toInt = n.toNat := by
  have hguard : greatestInt.toUInt64.toNat = 2 ^ 31 - 1 := by decide
  rw [UInt64.lt_iff_toNat_lt, hguard] at h
  rw [← Int64.toInt_toBitVec, UInt64.toBitVec_toInt64, BitVec.toInt_eq_toNat_bmod,
    UInt64.toNat_toBitVec]
  exact Int.bmod_eq_of_le (by omega) (by omega)

/-- A word in the range passes through 32 bits. -/
theorem toInt64_toInt32 {n : Int64} (h : -2 ^ 31 ≤ n.toInt ∧ n.toInt ≤ 2 ^ 31 - 1) :
    n.toInt32.toInt64 = n := by
  rw [← Int64.toInt_inj, Int32.toInt_toInt64, Int64.toInt_toInt32]
  exact Int.bmod_eq_of_le (by omega) (by omega)

/-- The coercion is that to 64 bits, cut down to the range. -/
theorem int?_eq_some {value result : Value} :
    int? value = some result ↔ ∃ n, int64? value = some n ∧
      (-2 ^ 31 ≤ n.toInt ∧ n.toInt ≤ 2 ^ 31 - 1) ∧ result = .int n := by
  unfold int?
  cases int64? value with
  | none => simp
  | some n =>
    simp only [Option.some.injEq, exists_eq_left', ← inRange_iff]
    split
    · rename_i hout
      simp [hout]
    · rename_i hrange
      rw [Bool.not_eq_true] at hrange
      rw [toInt64_toInt32 ((inRange_iff n).1 hrange)]
      simp [hrange, eq_comm]

/-- An unsigned word counts as the signed word of its number, if there is one. -/
theorem int?_uint {n : UInt64} {word : Int64} (h : word.toInt = n.toNat) :
    int? (.uint n) = int? (.int word) := by
  refine Option.ext fun result => ?_
  rw [int?_eq_some, int?_eq_some, int64?, int64?]
  split
  · rename_i hguard
    have hmost : greatestInt.toUInt64.toNat = 2 ^ 31 - 1 := by decide
    rw [UInt64.lt_iff_toNat_lt, hmost] at hguard
    constructor
    · rintro ⟨_, hnone, _⟩
      cases hnone
    · rintro ⟨_, hsome, hrange, _⟩
      obtain rfl := Option.some.inj hsome
      omega
  · rename_i hguard
    rw [Int64.toInt_inj.1 ((toInt_toInt64 hguard).trans h.symm)]

theorem int?_kept {value result : Value} (h : int? value = some result) :
    result.isLeaf = true ∧ int? result = some result := by
  obtain ⟨n, -, hrange, rfl⟩ := int?_eq_some.1 h
  exact ⟨rfl, int?_eq_some.2 ⟨n, rfl, hrange, rfl⟩⟩

theorem float?_finite {value result : Value} (h : float? value = some result) :
    ∃ x, result = .float x ∧ x.isFinite = true := by
  unfold float? at h
  split at h
  · rename_i n
    cases h
    have hlower := n.le_toInt
    have hupper := n.toInt_lt
    exact ⟨_, rfl, Binary64.isFinite_ofInt (by omega)⟩
  · rename_i n
    cases h
    exact ⟨_, rfl, Binary64.isFinite_ofInt n.toNat_lt⟩
  · split at h
    · rename_i hfinite
      cases h
      exact ⟨_, rfl, hfinite⟩
    · cases h
  · obtain ⟨x, hx, rfl⟩ := Option.map_eq_some_iff.1 h
    obtain ⟨numeral, _, hx⟩ := Option.bind_eq_some_iff.1 hx
    unfold Numeral.toBinary64? at hx
    split at hx
    · rename_i hrange
      cases hx
      exact ⟨_, rfl, (Bool.and_eq_true_iff.1 hrange).1⟩
    · cases hx
  · cases h

theorem boolean?_kept {value result : Value} (h : boolean? value = some result) :
    result.isLeaf = true ∧ boolean? result = some result := by
  unfold boolean? at h
  split at h
  · cases h
    exact ⟨rfl, rfl⟩
  · split at h
    · cases h
      exact ⟨rfl, rfl⟩
    · split at h
      · cases h
        exact ⟨rfl, rfl⟩
      · cases h
  · cases h

/-- A result of a built-in scalar is a leaf, and it is its own result. -/
theorem kept_of_builtIn {scalar : Bytes × (Value → Option Value)} (h : scalar ∈ builtIn)
    {value result : Value} (hresult : scalar.2 value = some result) :
    result.isLeaf = true ∧ scalar.2 result = some result := by
  unfold builtIn at h
  simp only [List.mem_cons, List.not_mem_nil, or_false] at h
  rcases h with rfl | rfl | rfl | rfl | rfl
  · cases value <;> simp only [string?, reduceCtorEq, Option.some.injEq] at hresult
    subst hresult
    exact ⟨rfl, rfl⟩
  · exact int?_kept hresult
  · obtain ⟨x, rfl, hfinite⟩ := float?_finite hresult
    exact ⟨rfl, by simp [float?, hfinite]⟩
  · exact boolean?_kept hresult
  · cases value <;> simp only [id?, reduceCtorEq, Option.some.injEq] at hresult
    all_goals
      subst hresult
      exact ⟨rfl, rfl⟩

end Scalar

/-- Every built-in type keeps what it gives. -/
theorem Build.idempotent_of_builtInTypes {m : Type → Type} [Monad m] [LawfulMonad m]
    [MonadAttach m] [LawfulMonadAttach m] {type : NamedType m} (h : type ∈ builtInTypes)
    {coerce : Coercer m} (hbody : type.body = .scalar coerce) : coerce.Idempotent := by
  obtain ⟨scalar, hscalar, rfl⟩ := List.mem_map.1 h
  cases hbody
  have hkept : ∀ result, Coercer.Gives (fun value => (pure (scalar.2 value) : Engine m _)) result →
      result.isLeaf = true ∧ scalar.2 result = some result := by
    rintro result ⟨value, hvalue⟩
    exact Scalar.kept_of_builtIn hscalar (LawfulMonadAttach.eq_of_canReturn_pure hvalue)
  exact ⟨fun result hgives => (hkept result hgives).1,
    fun result hgives => congrArg pure (hkept result hgives).2⟩

end GraphQL
