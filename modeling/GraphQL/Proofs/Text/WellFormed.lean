/-
GraphQL.Proofs.Text.WellFormed — which texts are well-formed UTF-8.

  §1 Pieces    — texts one after another, and ASCII.
  §2 Breaks    — a byte past ASCII that stands alone.
  §3 Plain     — names and numerals.
  §4 Messages  — what messages are put together from.

Messages are put together from texts that are there already, so a message is
well-formed if they are. One byte past ASCII is never a text by itself, and no
text around it can repair that, as long as ASCII comes next.
-/
import GraphQL.Proofs.Text.Utf8
import GraphQL.Proofs.Grammar.Printed
import Mathlib.Data.List.TakeWhile

namespace GraphQL

namespace Utf8

variable {a b text : Bytes} {byte : UInt8}

/-! ## §1 Pieces -/

theorem WellFormed.nil : WellFormed [] := ⟨[], rfl⟩

theorem WellFormed.append (ha : WellFormed a) (hb : WellFormed b) : WellFormed (a ++ b) := by
  obtain ⟨left, rfl⟩ := ha
  obtain ⟨right, rfl⟩ := hb
  exact ⟨left ++ right, List.flatMap_append.symm⟩

theorem wellFormed_utf8 (text : String) : WellFormed (utf8 text) := ⟨text.toList, rfl⟩

/-- A text goes on after its first character. -/
theorem wellFormed_cons_cases (h : WellFormed (byte :: text)) :
    (byte.toNat < 0x80 ∧ WellFormed text) ∨ ∃ continuation rest,
      0x80 ≤ byte.toNat ∧ Sequence byte continuation ∧ text = continuation ++ rest := by
  obtain ⟨characters, hcharacters⟩ := h
  cases characters with
  | nil => cases hcharacters
  | cons c characters =>
    rw [List.flatMap_cons] at hcharacters
    by_cases hc : c.toNat < 0x80
    · rw [encode_ascii hc] at hcharacters
      obtain ⟨rfl, rfl⟩ := List.cons_eq_cons.1 hcharacters
      refine .inl ⟨?_, characters, rfl⟩
      rw [UInt8.toNat_ofNat', Nat.mod_eq_of_lt (by omega)]
      exact hc
    · obtain ⟨first, continuation, hencode, hfirst, hsequence⟩ :=
        exists_sequence (Nat.le_of_not_lt hc)
      rw [hencode] at hcharacters
      obtain ⟨rfl, rfl⟩ := List.cons_eq_cons.1 hcharacters
      exact .inr ⟨continuation, _, hfirst, hsequence, rfl⟩

/-- An ASCII byte is a character, whatever comes after it. -/
theorem wellFormed_cons_iff (hbyte : byte.toNat < 0x80) :
    WellFormed (byte :: text) ↔ WellFormed text := by
  constructor
  · intro h
    rcases wellFormed_cons_cases h with ⟨_, htext⟩ | ⟨_, _, hpast, _⟩
    · exact htext
    · omega
  · rintro ⟨characters, rfl⟩
    exact ⟨Char.ofNat byte.toNat :: characters, by rw [List.flatMap_cons, encode_byte hbyte]; rfl⟩

/-- All bytes are ASCII. -/
def IsAscii (text : Bytes) : Prop := ∀ byte ∈ text, byte.toNat < 0x80

theorem wellFormed_append_iff (ha : IsAscii a) : WellFormed (a ++ b) ↔ WellFormed b := by
  induction a with
  | nil => rfl
  | cons byte a ih =>
    obtain ⟨hbyte, ha⟩ := List.forall_mem_cons.1 ha
    rw [List.cons_append, wellFormed_cons_iff hbyte, ih ha]

theorem IsAscii.wellFormed (h : IsAscii text) : WellFormed text := by
  rw [← List.append_nil text]
  exact (wellFormed_append_iff h).2 .nil

theorem IsAscii.append (ha : IsAscii a) (hb : IsAscii b) : IsAscii (a ++ b) :=
  List.forall_mem_append.2 ⟨ha, hb⟩

theorem IsAscii.cons (hbyte : byte.toNat < 0x80) (h : IsAscii text) : IsAscii (byte :: text) :=
  List.forall_mem_cons.2 ⟨hbyte, h⟩

/-! ## §2 Breaks -/

/-- A byte past ASCII is no text if a character that is ASCII comes next. -/
theorem not_wellFormed_cons {next : UInt8} (hbyte : 0x80 ≤ byte.toNat)
    (hnext : next.toNat < 0x80) : ¬ WellFormed (byte :: next :: text) := by
  intro h
  rcases wellFormed_cons_cases h with ⟨hascii, _⟩ | ⟨continuation, rest, _, hsequence, htext⟩
  · omega
  · -- A lead byte announces one byte at least, and that byte is past ASCII.
    obtain ⟨⟨⟨following, bits, least⟩, hlead, hlength, _⟩, hcontinues⟩ := hsequence
    rw [lead?_eq_some, leadOfNat] at hlead
    cases continuation with
    | nil =>
      obtain rfl : 0 = following := hlength
      split_ifs at hlead <;> simp at hlead
    | cons first more =>
      obtain ⟨rfl, _⟩ := List.cons_eq_cons.1 htext
      have := (isContinuation_iff next).1 (hcontinues next List.mem_cons_self)
      omega

/-- Nor can ASCII before it make it one. -/
theorem not_wellFormed_append {next : UInt8} (ha : IsAscii a) (hbyte : 0x80 ≤ byte.toNat)
    (hnext : next.toNat < 0x80) : ¬ WellFormed (a ++ byte :: next :: text) := by
  rw [wellFormed_append_iff ha]
  exact not_wellFormed_cons hbyte hnext

end Utf8

/-! ## §3 Plain -/

open Utf8

/-- All bytes are ASCII, and none is NUL. -/
def IsPlain (text : Bytes) : Prop := ∀ byte ∈ text, byte ≠ 0 ∧ byte.toNat < 0x80

variable {a b text : Bytes}

theorem IsPlain.isAscii (h : IsPlain text) : IsAscii text := fun byte hbyte => (h byte hbyte).2

theorem IsPlain.nil : IsPlain [] := fun _ h => nomatch h

theorem IsPlain.append (ha : IsPlain a) (hb : IsPlain b) : IsPlain (a ++ b) :=
  List.forall_mem_append.2 ⟨ha, hb⟩

theorem isPlain_of_forall (member : UInt8 → Bool)
    (hmember : ∀ n < 256, member (UInt8.ofNat n) = true → UInt8.ofNat n ≠ 0 ∧ n < 0x80)
    (h : ∀ byte ∈ text, member byte = true) : IsPlain text := by
  intro byte hbyte
  have hplain := hmember byte.toNat byte.toNat_lt
  rw [UInt8.ofNat_toNat] at hplain
  exact hplain (h byte hbyte)

theorem isPlain_of_isName (h : isName text = true) : IsPlain text := by
  cases text with
  | nil => cases h
  | cons first rest =>
    simp only [isName, Bool.and_eq_true, List.all_eq_true] at h
    refine isPlain_of_forall isNameByte (by decide +kernel) ?_
    exact List.forall_mem_cons.2 ⟨by simp [isNameByte, h.1], h.2⟩

theorem isPlain_of_digits (h : ∀ byte ∈ text, isDigit byte = true) : IsPlain text :=
  isPlain_of_forall isDigit (by decide +kernel) h

/-! ## §4 Messages -/

namespace Utf8

theorem wellFormed_isName (h : isName text = true) : WellFormed text :=
  (isPlain_of_isName h).isAscii.wellFormed

theorem wellFormed_decimal (n : Nat) : WellFormed (decimal n) :=
  (isPlain_of_digits (isDigits_decimal n).2).isAscii.wellFormed

theorem WellFormed.quoted (h : WellFormed text) : WellFormed (quoted text) := by
  have hclose : WellFormed [ascii '\x27'] := IsAscii.wellFormed (by simp [IsAscii]; decide)
  rw [GraphQL.quoted, List.cons_append, wellFormed_cons_iff (by decide)]
  exact h.append hclose

theorem WellFormed.joined {separator : Bytes} (hseparator : WellFormed separator)
    {texts : List Bytes} (h : ∀ text ∈ texts, WellFormed text) :
    WellFormed (joined separator texts) := by
  induction texts with
  | nil => exact .nil
  | cons text rest ih =>
    obtain ⟨htext, hrest⟩ := List.forall_mem_cons.1 h
    cases rest with
    | nil => simpa [GraphQL.joined] using htext
    | cons next rest =>
      exact htext.append (hseparator.append (ih hrest))

theorem WellFormed.quotedNames {names : List Bytes} (h : ∀ name ∈ names, WellFormed name) :
    WellFormed (quotedNames names) := by
  have hclose : WellFormed [ascii ')'] := IsAscii.wellFormed (by simp [IsAscii]; decide)
  rw [GraphQL.quotedNames, List.cons_append, wellFormed_cons_iff (by decide)]
  refine (WellFormed.joined (wellFormed_utf8 ", ") ?_).append hclose
  exact List.forall_mem_map.2 fun name hname => (h name hname).quoted

theorem WellFormed.countText {n : Nat} {adjective noun : Bytes} (hadjective : WellFormed adjective)
    (hnoun : WellFormed noun) : WellFormed (countText n adjective noun) := by
  have hblank : WellFormed [ascii ' '] := IsAscii.wellFormed (by simp [IsAscii]; decide)
  have hplural : WellFormed (if n = 1 then [] else [ascii 's']) := by
    split
    · exact .nil
    · exact IsAscii.wellFormed (by simp [IsAscii]; decide)
  exact (((((wellFormed_decimal n).append hblank).append hadjective).append hblank).append
    hnoun).append hplural

/-- A message that is cut before a NUL byte is cut between characters. -/
theorem WellFormed.untilNul (h : WellFormed text) : WellFormed (untilNul text) := by
  obtain ⟨characters, rfl⟩ := h
  induction characters with
  | nil => exact .nil
  | cons c rest ih =>
    rw [List.flatMap_cons]
    by_cases hc : c.toNat < 0x80
    · rw [encode_ascii hc, GraphQL.untilNul, List.singleton_append, List.takeWhile_cons]
      split
      · refine (wellFormed_cons_iff ?_).2 ih
        rw [UInt8.toNat_ofNat', Nat.mod_eq_of_lt (by omega)]
        exact hc
      · exact .nil
    · -- A sequence has no NUL byte.
      obtain ⟨first, continuation, hencode, hfirst, hsequence⟩ :=
        exists_sequence (Nat.le_of_not_lt hc)
      have hnonzero : ∀ byte ∈ String.utf8EncodeChar c, (byte != 0) = true := by
        rw [hencode]
        refine List.forall_mem_cons.2 ⟨?_, fun byte hbyte => ?_⟩
        · rw [bne_iff_ne]
          rintro rfl
          exact absurd hfirst (by decide)
        · have hcontinues := (isContinuation_iff byte).1 (hsequence.continues byte hbyte)
          rw [bne_iff_ne]
          rintro rfl
          exact absurd hcontinues.1 (by decide)
      rw [GraphQL.untilNul, List.takeWhile_append_of_pos hnonzero]
      exact WellFormed.append ⟨[c], by simp⟩ ih

end Utf8

/-- A text without NUL bytes is left as it is. -/
theorem untilNul_eq_self (h : ∀ byte ∈ text, byte ≠ 0) : untilNul text = text :=
  List.takeWhile_eq_self_iff.2 fun byte hbyte => bne_iff_ne.2 (h byte hbyte)

end GraphQL
