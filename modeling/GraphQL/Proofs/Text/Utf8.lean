/-
GraphQL.Proofs.Text.Utf8 — sequences of lead and continuation bytes are the
encodings of characters.

  §1 Bytes       — the ranges that the marker bits stand for.
  §2 Characters  — a code point that is admitted is that of a character.
  §3 Sequences   — admitted sequences and encodings are the same.
  §4 Escapes     — the bytes that an escape stands for are the encoding of a character.
-/
import GraphQL.Text.Escape
import Mathlib.Algebra.Group.Nat.Defs
import Mathlib.Data.List.Basic

namespace GraphQL

/-! ## §1 Bytes -/

/-- What holds of the bytes of all numbers below 256 holds of every byte. -/
theorem forall_byte {P : UInt8 → Prop} (h : ∀ n < 256, P (UInt8.ofNat n)) (b : UInt8) : P b := by
  have := h b.toNat b.toNat_lt
  rwa [UInt8.ofNat_toNat] at this

namespace Utf8

theorem isContinuation_iff (b : UInt8) :
    isContinuation b = true ↔ 128 ≤ b.toNat ∧ b.toNat < 192 := by
  revert b
  exact forall_byte (by decide +kernel)

theorem sixBits_toNat (b : UInt8) : (b &&& 0x3F).toNat = b.toNat % 64 := by
  revert b
  exact forall_byte (by decide +kernel)

/-- Which lead byte announces what, by its number. -/
def leadOfNat (n : Nat) : Option (Nat × Nat × Nat) :=
  if 192 ≤ n ∧ n < 224 then some (1, n - 192, 0x80)
  else if 224 ≤ n ∧ n < 240 then some (2, n - 224, 0x800)
  else if 240 ≤ n ∧ n < 248 then some (3, n - 240, 0x10000)
  else none

theorem lead?_eq (b : UInt8) :
    (lead? b).map (fun lead => (lead.following, lead.bits, lead.least)) = leadOfNat b.toNat := by
  revert b
  exact forall_byte (by decide +kernel)

theorem lead?_eq_some {b : UInt8} {following bits least : Nat} :
    lead? b = some ⟨following, bits, least⟩ ↔
      leadOfNat b.toNat = some (following, bits, least) := by
  rw [← lead?_eq]
  cases lead? b with
  | none => simp
  | some lead =>
    obtain ⟨f, x, l⟩ := lead
    simp

/-! ## §2 Characters -/

theorem toNat_ofNat {code : Nat} (hle : code ≤ 0x10FFFF) (h : isSurrogate code = false) :
    (Char.ofNat code).toNat = code := by
  have hvalid : code.isValidChar := by
    simp only [isSurrogate, Bool.and_eq_false_iff, decide_eq_false_iff_not] at h
    unfold Nat.isValidChar
    omega
  rw [Char.ofNat, dif_pos hvalid]
  rfl

theorem isSurrogate_toNat (c : Char) : isSurrogate c.toNat = false ∧ c.toNat ≤ 0x10FFFF := by
  have hvalid : c.toNat.isValidChar := c.valid
  unfold Nat.isValidChar at hvalid
  simp only [isSurrogate, Bool.and_eq_false_iff, decide_eq_false_iff_not]
  omega

theorem encode_ascii {c : Char} (h : c.toNat < 0x80) :
    String.utf8EncodeChar c = [UInt8.ofNat c.toNat] := by
  have hle : c.val.toNat ≤ 0x7f := Nat.le_of_lt_succ h
  simp only [String.utf8EncodeChar, if_pos hle]
  rfl

/-- The character of an ASCII byte is written as that byte. -/
theorem encode_byte {b : UInt8} (h : b.toNat < 0x80) :
    String.utf8EncodeChar (Char.ofNat b.toNat) = [b] := by
  have hc : (Char.ofNat b.toNat).toNat = b.toNat :=
    toNat_ofNat (by omega) (by simp [isSurrogate]; omega)
  rw [encode_ascii (by omega), hc, UInt8.ofNat_toNat]

/-! ## §3 Sequences -/

/-- A lead byte with the continuation bytes that it announces, where together
they are admitted. -/
structure Sequence (first : UInt8) (continuation : Bytes) : Prop where
  lead : ∃ lead, lead? first = some lead ∧ continuation.length = lead.following ∧
    lead.admits continuation = true
  continues : ∀ b ∈ continuation, isContinuation b = true

theorem ofNat_eq {b : UInt8} {n : Nat} (h : n = b.toNat) : UInt8.ofNat n = b := by
  rw [h, UInt8.ofNat_toNat]

/-- Three lengths of sequences, each with the numbers that it encodes. -/
theorem encode_eq_of_toNat {c : Char} {first : UInt8} {continuation : Bytes} :
    (∃ y, continuation = [y] ∧ 0x80 ≤ c.toNat ∧ c.toNat < 0x800 ∧
      first.toNat = 192 + c.toNat / 64 ∧ y.toNat = 128 + c.toNat % 64) ∨
    (∃ y z, continuation = [y, z] ∧ 0x800 ≤ c.toNat ∧ c.toNat < 0x10000 ∧
      first.toNat = 224 + c.toNat / 4096 ∧ y.toNat = 128 + c.toNat / 64 % 64 ∧
      z.toNat = 128 + c.toNat % 64) ∨
    (∃ y z w, continuation = [y, z, w] ∧ 0x10000 ≤ c.toNat ∧ c.toNat ≤ 0x10FFFF ∧
      first.toNat = 240 + c.toNat / 262144 ∧ y.toNat = 128 + c.toNat / 4096 % 64 ∧
      z.toNat = 128 + c.toNat / 64 % 64 ∧ w.toNat = 128 + c.toNat % 64) →
    0x80 ≤ c.toNat ∧ String.utf8EncodeChar c = first :: continuation := by
  have hv : c.val.toNat = c.toNat := rfl
  simp only [String.utf8EncodeChar, hv]
  rintro (⟨y, rfl, hlow, hhigh, hx, hy⟩ | ⟨y, z, rfl, hlow, hhigh, hx, hy, hz⟩ |
    ⟨y, z, w, rfl, hlow, hhigh, hx, hy, hz, hw⟩)
  · rw [if_neg (by omega), if_pos (by omega), ofNat_eq (b := first) (by omega),
      ofNat_eq (b := y) (by omega)]
    exact ⟨hlow, rfl⟩
  · rw [if_neg (by omega), if_neg (by omega), if_pos (by omega),
      ofNat_eq (b := first) (by omega), ofNat_eq (b := y) (by omega), ofNat_eq (b := z) (by omega)]
    exact ⟨by omega, rfl⟩
  · rw [if_neg (by omega), if_neg (by omega), if_neg (by omega),
      ofNat_eq (b := first) (by omega), ofNat_eq (b := y) (by omega), ofNat_eq (b := z) (by omega),
      ofNat_eq (b := w) (by omega)]
    exact ⟨by omega, rfl⟩

/-- A sequence is the encoding of a character past ASCII. -/
theorem Sequence.exists_char {first : UInt8} {continuation : Bytes}
    (h : Sequence first continuation) :
    ∃ c : Char, 0x80 ≤ c.toNat ∧ String.utf8EncodeChar c = first :: continuation := by
  obtain ⟨⟨⟨following, bits, least⟩, hlead, hlength, hadmits⟩, hcontinues⟩ := h
  rw [lead?_eq_some, leadOfNat] at hlead
  simp only [Lead.admits, Bool.and_eq_true, decide_eq_true_iff, Bool.not_eq_true'] at hadmits
  obtain ⟨⟨hleast, hmost⟩, hsurrogate⟩ := hadmits
  have hc := toNat_ofNat hmost hsurrogate
  generalize Char.ofNat _ = c at hc
  refine ⟨c, encode_eq_of_toNat ?_⟩
  rw [← hc] at hleast hmost
  simp only [isContinuation_iff] at hcontinues
  simp only [Lead.codePoint, sixBits_toNat] at hc
  split at hlead
  · obtain ⟨rfl, rfl, rfl⟩ : 1 = following ∧ first.toNat - 192 = bits ∧ 0x80 = least := by
      simpa using hlead
    obtain ⟨y, rfl⟩ := List.length_eq_one_iff.mp hlength
    have hy := hcontinues y (by simp)
    simp only [List.foldl_cons, List.foldl_nil] at hc
    exact .inl ⟨y, rfl, by omega, by omega, by omega, by omega⟩
  · split at hlead
    · obtain ⟨rfl, rfl, rfl⟩ : 2 = following ∧ first.toNat - 224 = bits ∧ 0x800 = least := by
        simpa using hlead
      obtain ⟨y, z, rfl⟩ := List.length_eq_two.mp hlength
      have hy := hcontinues y (by simp)
      have hz := hcontinues z (by simp)
      simp only [List.foldl_cons, List.foldl_nil] at hc
      exact .inr (.inl ⟨y, z, rfl, by omega, by omega, by omega, by omega, by omega⟩)
    · split at hlead
      · obtain ⟨rfl, rfl, rfl⟩ : 3 = following ∧ first.toNat - 240 = bits ∧ 0x10000 = least := by
          simpa using hlead
        obtain ⟨y, z, w, rfl⟩ := List.length_eq_three.mp hlength
        have hy := hcontinues y (by simp)
        have hz := hcontinues z (by simp)
        have hw := hcontinues w (by simp)
        simp only [List.foldl_cons, List.foldl_nil] at hc
        exact .inr (.inr ⟨y, z, w, rfl, by omega, by omega, by omega, by omega, by omega, by omega⟩)
      · cases hlead

theorem exists_byte {n : Nat} (hn : n < 256) : ∃ b : UInt8, b.toNat = n :=
  ⟨UInt8.ofNat n, by rw [UInt8.toNat_ofNat', Nat.mod_eq_of_lt hn]⟩

/-- A lead byte and continuation bytes whose digits make a character's code
point are a sequence. -/
theorem sequence_of_lead (c : Char) {first : UInt8} {continuation : Bytes}
    (following bits least : Nat) (hlead : leadOfNat first.toNat = some (following, bits, least))
    (hlength : continuation.length = following)
    (hcode : continuation.foldl (fun value b => value * 64 + b.toNat % 64) bits = c.toNat)
    (hleast : least ≤ c.toNat) (hcontinues : ∀ b ∈ continuation, 128 ≤ b.toNat ∧ b.toNat < 192) :
    Sequence first continuation := by
  obtain ⟨hsurrogate, hmost⟩ := isSurrogate_toNat c
  refine ⟨⟨_, lead?_eq_some.mpr hlead, hlength, ?_⟩, ?_⟩
  · simp only [Lead.admits, Lead.codePoint, sixBits_toNat, hcode, hsurrogate]
    simp [hleast, hmost]
  · intro b hb
    exact (isContinuation_iff b).mpr (hcontinues b hb)

/-- The encoding of a character past ASCII is a sequence. -/
theorem exists_sequence {c : Char} (h : 0x80 ≤ c.toNat) : ∃ first continuation,
    String.utf8EncodeChar c = first :: continuation ∧ 0x80 ≤ first.toNat ∧
      Sequence first continuation := by
  obtain ⟨-, hmost⟩ := isSurrogate_toNat c
  -- The continuation bytes are those of the digits of the code point to the base 64.
  by_cases htwo : c.toNat < 0x800
  · obtain ⟨x, hx⟩ := exists_byte (n := 192 + c.toNat / 64) (by omega)
    obtain ⟨y, hy⟩ := exists_byte (n := 128 + c.toNat % 64) (by omega)
    have hencode := encode_eq_of_toNat (.inl ⟨y, rfl, h, htwo, hx, hy⟩)
    refine ⟨x, [y], hencode.2, by omega, sequence_of_lead c 1 (x.toNat - 192) 0x80 ?_
      rfl ?_ h ?_⟩
    · rw [leadOfNat, if_pos (by omega)]
    · simp only [List.foldl_cons, List.foldl_nil]
      omega
    · simp only [List.forall_mem_singleton]
      omega
  by_cases hthree : c.toNat < 0x10000
  · obtain ⟨x, hx⟩ := exists_byte (n := 224 + c.toNat / 4096) (by omega)
    obtain ⟨y, hy⟩ := exists_byte (n := 128 + c.toNat / 64 % 64) (by omega)
    obtain ⟨z, hz⟩ := exists_byte (n := 128 + c.toNat % 64) (by omega)
    have hencode := encode_eq_of_toNat (.inr (.inl ⟨y, z, rfl, by omega, hthree, hx, hy, hz⟩))
    refine ⟨x, [y, z], hencode.2, by omega, sequence_of_lead c 2 (x.toNat - 224) 0x800 ?_
      rfl ?_ (by omega) ?_⟩
    · rw [leadOfNat, if_neg (by omega), if_pos (by omega)]
    · simp only [List.foldl_cons, List.foldl_nil]
      omega
    · simp only [List.mem_cons, List.not_mem_nil, or_false]
      rintro _ (rfl | rfl) <;> omega
  · obtain ⟨x, hx⟩ := exists_byte (n := 240 + c.toNat / 262144) (by omega)
    obtain ⟨y, hy⟩ := exists_byte (n := 128 + c.toNat / 4096 % 64) (by omega)
    obtain ⟨z, hz⟩ := exists_byte (n := 128 + c.toNat / 64 % 64) (by omega)
    obtain ⟨w, hw⟩ := exists_byte (n := 128 + c.toNat % 64) (by omega)
    have hencode := encode_eq_of_toNat
      (.inr (.inr ⟨y, z, w, rfl, by omega, hmost, hx, hy, hz, hw⟩))
    refine ⟨x, [y, z, w], hencode.2, by omega, sequence_of_lead c 3 (x.toNat - 240) 0x10000 ?_
      rfl ?_ (by omega) ?_⟩
    · rw [leadOfNat, if_neg (by omega), if_neg (by omega), if_pos (by omega)]
    · simp only [List.foldl_cons, List.foldl_nil]
      omega
    · simp only [List.mem_cons, List.not_mem_nil, or_false]
      rintro _ (rfl | rfl | rfl) <;> omega

end Utf8

/-! ## §4 Escapes -/

namespace Escape

/-- A marker and the bits below it do not overlap, so they add up. -/
theorem toNat_marked (marker width : Nat) {bits : Nat} (h : bits < 2 ^ width)
    (hbyte : marker <<< width + bits < 256) :
    (UInt8.ofNat (marker <<< width ||| bits)).toNat = marker <<< width + bits := by
  rw [← Nat.shiftLeft_add_eq_or_of_lt h, UInt8.toNat_ofNat', Nat.mod_eq_of_lt hbyte]

theorem toNat_continuationByte (bits : Nat) : (continuationByte bits).toNat = 128 + bits % 64 := by
  have hmask : bits &&& 0x3F = bits % 64 := Nat.and_two_pow_sub_one_eq_mod bits 6
  have hlow : bits % 64 < 64 := Nat.mod_lt _ (by decide)
  rw [continuationByte, hmask]
  exact toNat_marked 1 7 (by omega) (by omega)

/-- Branch by branch the encoder gives the encoding of the character whose code
point it is given. -/
theorem encoded_eq {code : Nat} (hmost : code ≤ 0x10FFFF) (h : Utf8.isSurrogate code = false) :
    encoded code = String.utf8EncodeChar (Char.ofNat code) := by
  have hc := Utf8.toNat_ofNat hmost h
  generalize Char.ofNat code = c at hc ⊢
  subst hc
  unfold encoded
  split
  · rename_i hone
    exact (Utf8.encode_ascii hone).symm
  · split
    · rename_i hone htwo
      refine (Utf8.encode_eq_of_toNat (.inl ⟨_, rfl, by omega, htwo, ?_, ?_⟩)).2.symm
      · rw [Nat.shiftRight_eq_div_pow]
        exact toNat_marked 3 6 (by omega) (by omega)
      · exact toNat_continuationByte _
    · split
      · rename_i htwo hthree
        refine (Utf8.encode_eq_of_toNat
          (.inr (.inl ⟨_, _, rfl, by omega, hthree, ?_, ?_, ?_⟩))).2.symm
        · rw [Nat.shiftRight_eq_div_pow]
          exact toNat_marked 7 5 (by omega) (by omega)
        · rw [toNat_continuationByte, Nat.shiftRight_eq_div_pow]
        · exact toNat_continuationByte _
      · rename_i hthree
        refine (Utf8.encode_eq_of_toNat
          (.inr (.inr ⟨_, _, _, rfl, by omega, hmost, ?_, ?_, ?_, ?_⟩))).2.symm
        · rw [Nat.shiftRight_eq_div_pow]
          exact toNat_marked 15 4 (by omega) (by omega)
        · rw [toNat_continuationByte, Nat.shiftRight_eq_div_pow]
        · rw [toNat_continuationByte, Nat.shiftRight_eq_div_pow]
        · exact toNat_continuationByte _

end Escape

end GraphQL
