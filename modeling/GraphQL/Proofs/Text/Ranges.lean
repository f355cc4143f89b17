/-
GraphQL.Proofs.Text.Ranges — which bytes may follow each other in UTF-8.

  §1 Table      — the sequences of bytes that encode a character, by ranges.
  §2 Sequences  — a lead byte with what it announces is a row of the table.
  §3 Texts      — well-formed texts are such sequences one after another.

The table says of each byte alone between which numbers it lies. Overlong forms,
encoded surrogates and numbers past U+10FFFF have no row, and neither has a
sequence that is cut short or that begins with a continuation byte.
-/
import GraphQL.Proofs.Text.Utf8
import Mathlib.Data.List.Forall2

namespace GraphQL.Utf8

/-! ## §1 Table -/

/-- The least and the greatest byte at each place of a sequence. -/
def byteRanges : List (List (Nat × Nat)) :=
  [[(0x00, 0x7F)],
   [(0xC2, 0xDF), (0x80, 0xBF)],
   [(0xE0, 0xE0), (0xA0, 0xBF), (0x80, 0xBF)],
   [(0xE1, 0xEC), (0x80, 0xBF), (0x80, 0xBF)],
   [(0xED, 0xED), (0x80, 0x9F), (0x80, 0xBF)],
   [(0xEE, 0xEF), (0x80, 0xBF), (0x80, 0xBF)],
   [(0xF0, 0xF0), (0x90, 0xBF), (0x80, 0xBF), (0x80, 0xBF)],
   [(0xF1, 0xF3), (0x80, 0xBF), (0x80, 0xBF), (0x80, 0xBF)],
   [(0xF4, 0xF4), (0x80, 0x8F), (0x80, 0xBF), (0x80, 0xBF)]]

/-- The bytes are as many as a row of the table has ranges, each in its range. -/
def Admitted (bytes : Bytes) : Prop :=
  ∃ row ∈ byteRanges, List.Forall₂ (fun b range => range.1 ≤ b.toNat ∧ b.toNat ≤ range.2) bytes row

/-- Admitted sequences one after another. -/
def Ranged (text : Bytes) : Prop :=
  ∃ parts : List Bytes, (∀ part ∈ parts, Admitted part) ∧ text = parts.flatten

variable {a b c d : UInt8} {bytes : Bytes}

theorem admitted_one : Admitted [a] ↔ a.toNat ≤ 0x7F := by
  simp [Admitted, byteRanges, List.forall₂_nil_left_iff, List.forall₂_nil_right_iff]

theorem admitted_two :
    Admitted [a, b] ↔ (0xC2 ≤ a.toNat ∧ a.toNat ≤ 0xDF) ∧ 0x80 ≤ b.toNat ∧ b.toNat ≤ 0xBF := by
  simp [Admitted, byteRanges, List.forall₂_nil_left_iff, List.forall₂_nil_right_iff]

theorem admitted_three :
    Admitted [a, b, c] ↔ (0xE0 ≤ a.toNat ∧ a.toNat ≤ 0xEF) ∧
      (0x80 ≤ b.toNat ∧ b.toNat ≤ 0xBF ∧ (a.toNat = 0xE0 → 0xA0 ≤ b.toNat) ∧
        (a.toNat = 0xED → b.toNat ≤ 0x9F)) ∧
      0x80 ≤ c.toNat ∧ c.toNat ≤ 0xBF := by
  simp [Admitted, byteRanges, List.forall₂_nil_left_iff, List.forall₂_nil_right_iff]
  omega

theorem admitted_four :
    Admitted [a, b, c, d] ↔ (0xF0 ≤ a.toNat ∧ a.toNat ≤ 0xF4) ∧
      (0x80 ≤ b.toNat ∧ b.toNat ≤ 0xBF ∧ (a.toNat = 0xF0 → 0x90 ≤ b.toNat) ∧
        (a.toNat = 0xF4 → b.toNat ≤ 0x8F)) ∧
      (0x80 ≤ c.toNat ∧ c.toNat ≤ 0xBF) ∧ 0x80 ≤ d.toNat ∧ d.toNat ≤ 0xBF := by
  simp [Admitted, byteRanges, List.forall₂_nil_right_iff]
  omega

theorem Admitted.length_le (h : Admitted bytes) : 1 ≤ bytes.length ∧ bytes.length ≤ 4 := by
  obtain ⟨row, hrow, hbytes⟩ := h
  have hall : ∀ row ∈ byteRanges, 1 ≤ row.length ∧ row.length ≤ 4 := by decide
  rw [hbytes.length_eq]
  exact hall row hrow

/-- A byte of ASCII begins no longer sequence. -/
theorem Admitted.of_ascii {continuation : Bytes} (h : Admitted (a :: continuation))
    (ha : a.toNat < 0x80) : continuation = [] := by
  have hall : ∀ row ∈ byteRanges, ∀ range ∈ row.head?, range.1 < 0x80 → row.tail = [] := by decide
  obtain ⟨row, hrow, hbytes⟩ := h
  cases hbytes with
  | @cons _ range _ ranges hrange hcontinuation =>
    obtain rfl : ranges = [] := hall _ hrow range rfl (Nat.lt_of_le_of_lt hrange.1 ha)
    exact List.forall₂_nil_right_iff.1 hcontinuation

/-! ## §2 Sequences -/

theorem sequence_iff {first : UInt8} {continuation : Bytes} :
    Sequence first continuation ↔ ∃ following bits least code,
      leadOfNat first.toNat = some (following, bits, least) ∧ continuation.length = following ∧
      continuation.foldl (fun value b => value * 64 + b.toNat % 64) bits = code ∧
      (least ≤ code ∧ code ≤ 0x10FFFF ∧ ¬ (0xD800 ≤ code ∧ code ≤ 0xDFFF)) ∧
      ∀ b ∈ continuation, 128 ≤ b.toNat ∧ b.toNat < 192 := by
  have hadmits (lead : Lead) : lead.admits continuation = true ↔
      lead.least ≤ lead.codePoint continuation ∧ lead.codePoint continuation ≤ 0x10FFFF ∧
        ¬ (0xD800 ≤ lead.codePoint continuation ∧ lead.codePoint continuation ≤ 0xDFFF) := by
    simp only [Lead.admits, isSurrogate, Bool.and_eq_true, decide_eq_true_eq, and_assoc,
      ← Bool.not_eq_true, Bool.not_eq_true']
  constructor
  · rintro ⟨⟨⟨following, bits, least⟩, hlead, hlength, hcode⟩, hcontinues⟩
    simp only [isContinuation_iff] at hcontinues
    rw [hadmits] at hcode
    simp only [Lead.codePoint, sixBits_toNat] at hcode
    exact ⟨following, bits, least, _, lead?_eq_some.1 hlead, hlength, rfl, hcode, hcontinues⟩
  · rintro ⟨following, bits, least, _, hlead, hlength, rfl, hcode, hcontinues⟩
    refine ⟨⟨_, lead?_eq_some.2 hlead, hlength, (hadmits _).2 ?_⟩, ?_⟩
    · simpa only [Lead.codePoint, sixBits_toNat] using hcode
    · exact fun b hb => (isContinuation_iff b).2 (hcontinues b hb)

theorem leadOfNat_eq_some {n following bits least : Nat} :
    leadOfNat n = some (following, bits, least) ↔
      (192 ≤ n ∧ n < 224 ∧ following = 1 ∧ bits = n - 192 ∧ least = 0x80) ∨
      (224 ≤ n ∧ n < 240 ∧ following = 2 ∧ bits = n - 224 ∧ least = 0x800) ∨
      (240 ≤ n ∧ n < 248 ∧ following = 3 ∧ bits = n - 240 ∧ least = 0x10000) := by
  unfold leadOfNat
  split_ifs <;> simp only [Option.some.injEq, Prod.mk.injEq, false_iff] <;> omega

/-- Past ASCII, sequences and the rows of the table are the same. -/
theorem sequence_iff_admitted {first : UInt8} {continuation : Bytes} (h : 0x80 ≤ first.toNat) :
    Sequence first continuation ↔ Admitted (first :: continuation) := by
  rw [sequence_iff]
  constructor
  · rintro ⟨_, _, _, _, hlead, hlength, rfl, hcode, hcontinues⟩
    rcases leadOfNat_eq_some.1 hlead with ⟨_, _, hfollowing, _, _⟩ | ⟨_, _, hfollowing, _, _⟩ |
      ⟨_, _, hfollowing, _, _⟩
    · obtain ⟨b, rfl⟩ := List.length_eq_one_iff.1 (hlength.trans hfollowing)
      simp only [List.forall_mem_singleton, List.foldl_cons, List.foldl_nil] at hcontinues hcode
      rw [admitted_two]
      omega
    · obtain ⟨b, c, rfl⟩ := List.length_eq_two.1 (hlength.trans hfollowing)
      simp only [List.forall_mem_cons, List.foldl_cons, List.foldl_nil] at hcontinues hcode
      rw [admitted_three]
      omega
    · obtain ⟨b, c, d, rfl⟩ := List.length_eq_three.1 (hlength.trans hfollowing)
      simp only [List.forall_mem_cons, List.foldl_cons, List.foldl_nil] at hcontinues hcode
      rw [admitted_four]
      omega
  · intro hrow
    have hlength := hrow.length_le.2
    match continuation with
    | [] =>
      rw [admitted_one] at hrow
      omega
    | [b] =>
      rw [admitted_two] at hrow
      refine ⟨1, _, _, _, leadOfNat_eq_some.2 (.inl ⟨by omega, by omega, rfl, rfl, rfl⟩), rfl,
        rfl, ?_⟩
      simp only [List.forall_mem_singleton, List.foldl_cons, List.foldl_nil]
      omega
    | [b, c] =>
      rw [admitted_three] at hrow
      refine ⟨2, _, _, _, leadOfNat_eq_some.2 (.inr (.inl ⟨by omega, by omega, rfl, rfl, rfl⟩)),
        rfl, rfl, ?_⟩
      simp only [List.forall_mem_cons, List.foldl_cons, List.foldl_nil, List.not_mem_nil,
        IsEmpty.forall_iff, implies_true, and_true]
      omega
    | [b, c, d] =>
      rw [admitted_four] at hrow
      refine ⟨3, _, _, _, leadOfNat_eq_some.2 (.inr (.inr ⟨by omega, by omega, rfl, rfl, rfl⟩)),
        rfl, rfl, ?_⟩
      simp only [List.forall_mem_cons, List.foldl_cons, List.foldl_nil, List.not_mem_nil,
        IsEmpty.forall_iff, implies_true, and_true]
      omega
    | _ :: _ :: _ :: _ :: _ =>
      simp only [List.length_cons] at hlength
      omega

/-- The table has the encodings of all characters, and no other sequences. -/
theorem admitted_iff : Admitted bytes ↔ ∃ c : Char, String.utf8EncodeChar c = bytes := by
  constructor
  · intro h
    cases bytes with
    | nil =>
      have := h.length_le.1
      simp at this
    | cons first continuation =>
      by_cases hfirst : first.toNat < 0x80
      · obtain rfl := h.of_ascii hfirst
        exact ⟨_, encode_byte hfirst⟩
      · obtain ⟨c, -, hencode⟩ :=
          ((sequence_iff_admitted (Nat.le_of_not_lt hfirst)).2 h).exists_char
        exact ⟨c, hencode⟩
  · rintro ⟨c, rfl⟩
    by_cases hc : c.toNat < 0x80
    · rw [encode_ascii hc, admitted_one, UInt8.toNat_ofNat']
      omega
    · obtain ⟨first, continuation, hencode, hfirst, hsequence⟩ :=
        exists_sequence (Nat.le_of_not_lt hc)
      rw [hencode]
      exact (sequence_iff_admitted hfirst).1 hsequence

/-! ## §3 Texts -/

/-- A text is well-formed if the table admits it piece by piece. -/
theorem wellFormed_iff_ranged {text : Bytes} : WellFormed text ↔ Ranged text := by
  constructor
  · rintro ⟨characters, rfl⟩
    refine ⟨characters.map String.utf8EncodeChar, ?_, List.flatMap_def⟩
    exact List.forall_mem_map.2 fun c _ => admitted_iff.2 ⟨c, rfl⟩
  · rintro ⟨parts, hparts, rfl⟩
    induction parts with
    | nil => exact ⟨[], rfl⟩
    | cons part parts ih =>
      obtain ⟨hpart, hrest⟩ := List.forall_mem_cons.1 hparts
      obtain ⟨characters, hcharacters⟩ := ih hrest
      obtain ⟨c, rfl⟩ := admitted_iff.1 hpart
      exact ⟨c :: characters, by rw [List.flatten_cons, hcharacters, List.flatMap_cons]⟩

end GraphQL.Utf8
