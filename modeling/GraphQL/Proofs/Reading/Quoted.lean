/-
GraphQL.Proofs.Reading.Quoted — string literals are read as their spellings.

  §1 Raw characters  — multi-byte sequences are encodings of characters.
  §2 Code units      — hexadecimal digits and surrogate pairs.
  §3 Characters      — one character of a string, or the closing quote.
  §4 Strings         — everything between two quotes.

The character of a spelling is unique, so a string literal denotes exactly the
encoding of the characters that were written.
-/
import GraphQL.Proofs.Reading.Lexeme
import GraphQL.Proofs.Text.Utf8

namespace GraphQL.Reading

open Escape

/-! ## §1 Raw characters -/

theorem split_of_continuation {count : Nat} : ∀ {c c' : Cursor} {bytes : Bytes},
    (continuation count).run c = .ok (bytes, c') → c.rest = bytes ++ c'.rest ∧
      bytes.length = count ∧ ∀ b ∈ bytes, Utf8.isContinuation b = true := by
  induction count with
  | zero =>
    intro c c' bytes h
    obtain ⟨rfl, rfl⟩ := pure_ok.mp h
    simp
  | succ count ih =>
    intro c c' bytes h
    obtain ⟨found, _, hpeek, h⟩ := bind_ok.mp h
    obtain ⟨rfl, rfl⟩ := peek_ok.mp hpeek
    split at h
    · exact (fail_ok.mp h).elim
    · rename_i b hb
      split at h
      · rename_i hcontinues
        obtain ⟨_, _, hadvance, h⟩ := bind_ok.mp h
        obtain rfl := advance_ok.mp hadvance
        obtain ⟨more, _, hmore, h⟩ := bind_ok.mp h
        obtain ⟨rfl, rfl⟩ := pure_ok.mp h
        obtain ⟨hsplit, hlength, hall⟩ := ih hmore
        refine ⟨?_, by simp [hlength], List.forall_mem_cons.mpr ⟨hcontinues, hall⟩⟩
        rw [rest_of_head? hb, hsplit]
        rfl
      · exact (fail_ok.mp h).elim

theorem takes_continuation {bytes : Bytes} (rest : Bytes)
    (h : ∀ b ∈ bytes, Utf8.isContinuation b = true) :
    Takes (continuation bytes.length) (bytes ++ rest) (· = bytes) rest := by
  induction bytes with
  | nil => exact .pure rfl
  | cons b bytes ih =>
    obtain ⟨hb, hrest⟩ := List.forall_mem_cons.mp h
    apply Takes.peek_bind
    simp only [List.cons_append, List.head?_cons, hb, if_true]
    refine (Takes.advance b _).bind fun _ _ => (ih hrest).bind_eq ?_
    exact .pure rfl

theorem split_of_sequence {first : UInt8} {c c' : Cursor} {bytes : Bytes}
    (h : (sequence first).run c = .ok (bytes, c')) :
    ∃ ch : Char, 0x80 ≤ ch.toNat ∧ String.utf8EncodeChar ch = bytes ∧
      first :: c.rest = bytes ++ c'.rest := by
  unfold sequence at h
  split at h
  · exact (fail_ok.mp h).elim
  · rename_i lead hlead
    obtain ⟨more, middle, hmore, h⟩ := bind_ok.mp h
    obtain ⟨hsplit, hlength, hall⟩ := split_of_continuation hmore
    split at h
    · rename_i hadmits
      obtain ⟨rfl, rfl⟩ := pure_ok.mp h
      have hsequence : Utf8.Sequence first more := ⟨⟨lead, hlead, hlength, hadmits⟩, hall⟩
      obtain ⟨ch, hlow, hencode⟩ := hsequence.exists_char
      exact ⟨ch, hlow, hencode, by rw [hsplit]; rfl⟩
    · exact (fail_ok.mp h).elim

theorem takes_sequence {first : UInt8} {more : Bytes} (rest : Bytes)
    (h : Utf8.Sequence first more) :
    Takes (sequence first) (more ++ rest) (· = first :: more) rest := by
  obtain ⟨⟨lead, hlead, hlength, hadmits⟩, hall⟩ := h
  unfold sequence
  rw [hlead]
  simp only
  rw [← hlength]
  apply (takes_continuation rest hall).bind_eq
  rw [if_pos hadmits]
  exact .pure rfl

/-! ## §2 Code units -/

theorem split_of_hexDigits {count : Nat} : ∀ {value code : Nat} {c c' : Cursor},
    (hexDigits count value).run c = .ok (code, c') →
      ∃ run, c.rest = run ++ c'.rest ∧ run.length = count ∧ hexNumber? value run = some code := by
  induction count with
  | zero =>
    intro value code c c' h
    obtain ⟨rfl, rfl⟩ := pure_ok.mp h
    exact ⟨[], rfl, rfl, rfl⟩
  | succ count ih =>
    intro value code c c' h
    obtain ⟨found, _, hpeek, h⟩ := bind_ok.mp h
    obtain ⟨rfl, rfl⟩ := peek_ok.mp hpeek
    split at h
    · exact (fail_ok.mp h).elim
    · rename_i x hx
      obtain ⟨_, _, hadvance, h⟩ := bind_ok.mp h
      obtain rfl := advance_ok.mp hadvance
      obtain ⟨d, hd, hvalue⟩ := Option.bind_eq_some_iff.mp hx
      obtain ⟨run, hsplit, hlength, hnumber⟩ := ih h
      refine ⟨d :: run, ?_, by simp [hlength], by simp [hexNumber?, hvalue, hnumber]⟩
      rw [rest_of_head? hd, hsplit]
      rfl

theorem takes_hexDigits {run : Bytes} (rest : Bytes) : ∀ {value code : Nat},
    hexNumber? value run = some code →
      Takes (hexDigits run.length value) (run ++ rest) (· = code) rest := by
  induction run with
  | nil =>
    intro value code h
    exact .pure (Option.some.inj h)
  | cons d run ih =>
    intro value code h
    rw [hexNumber?] at h
    split at h
    · rename_i x hx
      apply Takes.peek_bind
      simp only [List.cons_append, List.head?_cons, Option.bind_some, hx]
      exact (Takes.advance d _).bind fun _ _ => ih h
    · cases h

theorem hexValue?_lt {b : UInt8} {x : Nat} (h : hexValue? b = some x) : x < 16 := by
  have hall : ∀ b : UInt8, ∀ x ∈ hexValue? b, x < 16 := forall_byte (by decide +kernel)
  exact hall b x h

/-- Each digit makes room for sixteen numbers. -/
theorem hexNumber?_lt {digits : Bytes} : ∀ {value code : Nat},
    hexNumber? value digits = some code → code < (value + 1) * 16 ^ digits.length := by
  induction digits with
  | nil =>
    intro value code h
    cases h
    simp
  | cons d digits ih =>
    intro value code h
    rw [hexNumber?] at h
    split at h
    · rename_i x hx
      have hdigit := hexValue?_lt hx
      calc code < (value * 16 + x + 1) * 16 ^ digits.length := ih h
        _ ≤ ((value + 1) * 16) * 16 ^ digits.length := Nat.mul_le_mul_right _ (by omega)
        _ = (value + 1) * 16 ^ (d :: digits).length := by
          rw [List.length_cons, Nat.pow_succ', Nat.mul_assoc]
    · cases h

/-- A code unit that is no half of a pair is encoded as its character. -/
theorem encoded_codeUnit {run : Bytes} {code : Nat} (h : IsCodeUnit run code)
    (hwhole : Utf8.isSurrogate code = false) :
    encoded code = String.utf8EncodeChar (Char.ofNat code) := by
  have hlt := hexNumber?_lt h.2
  rw [h.1] at hlt
  exact encoded_eq (by omega) hwhole

/-- A pair is encoded as the character past U+FFFF that it denotes. -/
theorem encoded_pairedCode {high low : Nat} (hhigh : isHighSurrogate high = true)
    (hlow : isLowSurrogate low = true) :
    encoded (pairedCode high low) = String.utf8EncodeChar (Char.ofNat (pairedCode high low)) := by
  simp only [isHighSurrogate, isLowSurrogate, Bool.and_eq_true, decide_eq_true_eq] at hhigh hlow
  have hrange : 0x10000 ≤ pairedCode high low ∧ pairedCode high low ≤ 0x10FFFF := by
    unfold pairedCode
    omega
  refine encoded_eq hrange.2 ?_
  simp only [Utf8.isSurrogate, Bool.and_eq_false_iff, decide_eq_false_iff_not]
  omega

theorem split_of_codeUnit {code : Nat} {c c' : Cursor} (h : codeUnit.run c = .ok (code, c')) :
    ∃ run, c.rest = run ++ c'.rest ∧ IsCodeUnit run code := by
  obtain ⟨run, hsplit, hlength, hnumber⟩ := split_of_hexDigits h
  exact ⟨run, hsplit, hlength, hnumber⟩

theorem takes_codeUnit {run : Bytes} {code : Nat} (rest : Bytes) (h : IsCodeUnit run code) :
    Takes codeUnit (run ++ rest) (· = code) rest := by
  have := takes_hexDigits rest h.2
  rwa [h.1] at this

theorem split_of_lowSurrogate {code : Nat} {c c' : Cursor}
    (h : lowSurrogate.run c = .ok (code, c')) :
    ∃ run, c.rest = ascii '\\' :: ascii 'u' :: run ++ c'.rest ∧ IsCodeUnit run code ∧
      isLowSurrogate code = true := by
  obtain ⟨seen, _, hget, h⟩ := bind_ok.mp h
  obtain ⟨rfl, rfl⟩ := get_ok.mp hget
  split at h
  · rename_i htake
    obtain ⟨_, _, hadvance, h⟩ := bind_ok.mp h
    obtain rfl := advance_ok.mp hadvance
    obtain ⟨_, _, hadvance, h⟩ := bind_ok.mp h
    obtain rfl := advance_ok.mp hadvance
    obtain ⟨low, _, hlow, h⟩ := bind_ok.mp h
    split at h
    · rename_i hislow
      obtain ⟨rfl, rfl⟩ := pure_ok.mp h
      obtain ⟨run, hsplit, hunit⟩ := split_of_codeUnit hlow
      rw [next_rest, next_rest, ← List.drop_one, ← List.drop_one, List.drop_drop] at hsplit
      refine ⟨run, ?_, hunit, hislow⟩
      rw [← List.take_append_drop 2 c.rest, htake, hsplit]
      rfl
    · exact (fail_ok.mp h).elim
  · exact (fail_ok.mp h).elim

theorem takes_lowSurrogate {run : Bytes} {code : Nat} (rest : Bytes) (h : IsCodeUnit run code)
    (hlow : isLowSurrogate code = true) :
    Takes lowSurrogate (ascii '\\' :: ascii 'u' :: run ++ rest) (· = code) rest := by
  have hget : Takes (get : Reading Cursor) (ascii '\\' :: ascii 'u' :: run ++ rest)
      (fun seen => seen.rest = ascii '\\' :: ascii 'u' :: run ++ rest)
      (ascii '\\' :: ascii 'u' :: run ++ rest) :=
    fun location => ⟨_, ⟨_, location⟩, rfl, rfl, rfl⟩
  refine hget.bind fun seen hseen => ?_
  rw [if_pos (by simp [hseen])]
  refine (Takes.advance (ascii '\\') _).bind fun _ _ => ?_
  refine (Takes.advance (ascii 'u') _).bind fun _ _ => (takes_codeUnit rest h).bind_eq ?_
  rw [if_pos hlow]
  exact .pure rfl

/-! ## §3 Characters -/

theorem toNat_of_shortEscape {letter b : UInt8} (h : shortEscape? letter = some b) :
    b.toNat < 0x80 ∧ letter ≠ ascii 'u' := by
  have hall : ∀ letter : UInt8, (shortEscape? letter).all (fun b => b < 0x80) = true :=
    forall_byte (by decide +kernel)
  have hletter := hall letter
  rw [h, Option.all_some, decide_eq_true_eq, UInt8.lt_iff_toNat_lt] at hletter
  refine ⟨hletter, ?_⟩
  intro heq
  subst heq
  cases h

/-- Which bytes are no characters of their own between quotes. -/
theorem mustEscape_byte {b : UInt8} (h : b.toNat < 0x80) :
    mustEscape (Char.ofNat b.toNat) = true ↔
      b = ascii '"' ∨ b = ascii '\\' ∨ isLineEnd b = true := by
  have hall : ∀ n < 256, n < 0x80 → (mustEscape (Char.ofNat n) = true ↔
      UInt8.ofNat n = ascii '"' ∨ UInt8.ofNat n = ascii '\\' ∨
        isLineEnd (UInt8.ofNat n) = true) := by decide +kernel
  have := hall b.toNat b.toNat_lt h
  rwa [UInt8.ofNat_toNat] at this

theorem split_of_unicodeEscape {c c' : Cursor} {bytes : Bytes}
    (h : unicodeEscape.run c = .ok (bytes, c')) :
    ∃ ch word, CharSpelling ch (ascii '\\' :: ascii 'u' :: word) ∧
      String.utf8EncodeChar ch = bytes ∧ c.rest = word ++ c'.rest := by
  obtain ⟨code, middle, hcode, h⟩ := bind_ok.mp h
  obtain ⟨run, hsplit, hunit⟩ := split_of_codeUnit hcode
  split at h
  · exact (fail_ok.mp h).elim
  · rename_i hlow
    split at h
    · rename_i hhigh
      obtain ⟨low, _, hsurrogate, h⟩ := bind_ok.mp h
      obtain ⟨rfl, rfl⟩ := pure_ok.mp h
      obtain ⟨second, hsplit', hunit', hislow⟩ := split_of_lowSurrogate hsurrogate
      refine ⟨_, _, .pair run second code low hunit hunit' hhigh hislow,
        (encoded_pairedCode hhigh hislow).symm, ?_⟩
      rw [hsplit, hsplit']
      simp
    · rename_i hhigh
      obtain ⟨rfl, rfl⟩ := pure_ok.mp h
      have hwhole : Utf8.isSurrogate code = false := by
        simp only [isLowSurrogate, isHighSurrogate, Utf8.isSurrogate, Bool.and_eq_true,
          decide_eq_true_eq, Bool.and_eq_false_iff, decide_eq_false_iff_not] at hlow hhigh ⊢
        omega
      exact ⟨_, _, .unit run code hunit hwhole, (encoded_codeUnit hunit hwhole).symm, hsplit⟩

theorem split_of_escape {c c' : Cursor} {bytes : Bytes} (h : escape.run c = .ok (bytes, c')) :
    ∃ ch word, CharSpelling ch (ascii '\\' :: word) ∧ String.utf8EncodeChar ch = bytes ∧
      c.rest = word ++ c'.rest := by
  obtain ⟨found, _, hpeek, h⟩ := bind_ok.mp h
  obtain ⟨rfl, rfl⟩ := peek_ok.mp hpeek
  obtain ⟨_, _, hadvance, h⟩ := bind_ok.mp h
  obtain rfl := advance_ok.mp hadvance
  split at h
  · rename_i hu
    obtain ⟨ch, word, hspells, hencode, hsplit⟩ := split_of_unicodeEscape h
    refine ⟨ch, ascii 'u' :: word, hspells, hencode, ?_⟩
    rw [rest_of_head? hu, hsplit]
    rfl
  · split at h
    · rename_i b hb
      obtain ⟨rfl, rfl⟩ := pure_ok.mp h
      obtain ⟨letter, hletter, hmeans⟩ := Option.bind_eq_some_iff.mp hb
      refine ⟨_, [letter], .short letter b hmeans,
        Utf8.encode_byte (toNat_of_shortEscape hmeans).1, ?_⟩
      exact rest_of_head? hletter
    · exact (fail_ok.mp h).elim

/-- What one step of reading a string says about the text. -/
theorem split_of_character {start : Location} {c c' : Cursor} {found : Option Bytes}
    (h : (character start).run c = .ok (found, c')) :
    match found with
    | none => c.rest = ascii '"' :: c'.rest
    | some bytes => ∃ ch word, CharSpelling ch word ∧ String.utf8EncodeChar ch = bytes ∧
        c.rest = word ++ c'.rest := by
  obtain ⟨next, _, hpeek, h⟩ := bind_ok.mp h
  obtain ⟨rfl, rfl⟩ := peek_ok.mp hpeek
  split at h
  · exact (failAt_ok.mp h).elim
  · rename_i b hb
    split at h
    · exact (failAt_ok.mp h).elim
    · rename_i hline
      obtain ⟨_, _, hadvance, h⟩ := bind_ok.mp h
      obtain rfl := advance_ok.mp hadvance
      split at h
      · rename_i hquote
        obtain ⟨rfl, rfl⟩ := pure_ok.mp h
        exact hquote ▸ rest_of_head? hb
      · rename_i hquote
        split at h
        · obtain ⟨bytes, hbytes, rfl⟩ := map_ok.mp h
          obtain ⟨ch, hlow, hencode, hsplit⟩ := split_of_sequence hbytes
          refine ⟨ch, _, .raw ch (mustEscape_of_le hlow), hencode, ?_⟩
          rw [rest_of_head? hb, hsplit, hencode]
        · rename_i hascii
          have hsmall : b.toNat < 0x80 := by
            simpa [UInt8.le_iff_toNat_le] using hascii
          split at h
          · rename_i hbackslash
            obtain ⟨bytes, hbytes, rfl⟩ := map_ok.mp h
            obtain ⟨ch, word, hspells, hencode, hsplit⟩ := split_of_escape hbytes
            refine ⟨ch, _, hspells, hencode, ?_⟩
            rw [rest_of_head? hb, hsplit, hbackslash]
            rfl
          · rename_i hbackslash
            obtain ⟨rfl, rfl⟩ := pure_ok.mp h
            have hplain : mustEscape (Char.ofNat b.toNat) = false := by
              rw [← Bool.not_eq_true, mustEscape_byte hsmall]
              simp [hquote, hbackslash, hline]
            refine ⟨_, _, .raw _ hplain, Utf8.encode_byte hsmall, ?_⟩
            rw [Utf8.encode_byte hsmall]
            exact rest_of_head? hb

theorem takes_escape_unit {run : Bytes} {code : Nat} (rest : Bytes) (h : IsCodeUnit run code)
    (hwhole : Utf8.isSurrogate code = false) :
    Takes escape (ascii 'u' :: run ++ rest) (· = encoded code) rest := by
  have hhalf : isLowSurrogate code = false ∧ isHighSurrogate code = false := by
    simp only [isLowSurrogate, isHighSurrogate, Utf8.isSurrogate, Bool.and_eq_false_iff,
      decide_eq_false_iff_not] at hwhole ⊢
    omega
  apply Takes.peek_bind
  refine (Takes.advance (ascii 'u') _).bind fun _ _ => ?_
  simp only [List.cons_append, List.head?_cons, if_true]
  refine (takes_codeUnit rest h).bind_eq ?_
  simp only [hhalf.1, hhalf.2, Bool.false_eq_true, if_false]
  exact .pure rfl

theorem takes_escape_pair {first second : Bytes} {high low : Nat} (rest : Bytes)
    (h₁ : IsCodeUnit first high) (h₂ : IsCodeUnit second low)
    (hhigh : isHighSurrogate high = true) (hlow : isLowSurrogate low = true) :
    Takes escape (ascii 'u' :: first ++ ascii '\\' :: ascii 'u' :: second ++ rest)
      (· = encoded (pairedCode high low)) rest := by
  have hnotlow : isLowSurrogate high = false := by
    simp only [isLowSurrogate, isHighSurrogate, Bool.and_eq_true, decide_eq_true_eq,
      Bool.and_eq_false_iff, decide_eq_false_iff_not] at hhigh ⊢
    omega
  apply Takes.peek_bind
  simp only [List.cons_append, List.append_assoc, List.head?_cons, if_true]
  refine (Takes.advance (ascii 'u') _).bind fun _ _ => ?_
  refine (takes_codeUnit _ h₁).bind_eq ?_
  simp only [hnotlow, hhigh, Bool.false_eq_true, if_false, if_true]
  apply (takes_lowSurrogate rest h₂ hlow).bind_eq
  exact .pure rfl

theorem takes_escape_short {letter b : UInt8} (rest : Bytes) (h : shortEscape? letter = some b) :
    Takes escape (letter :: rest) (· = [b]) rest := by
  apply Takes.peek_bind
  refine (Takes.advance letter _).bind fun _ _ => ?_
  simp only [List.head?_cons, Option.some.injEq, (toNat_of_shortEscape h).2, if_false,
    Option.bind_some, h]
  exact .pure rfl

/-- A backslash hands over to the reading of escapes. -/
theorem takes_character_escape {start : Location} {bytes text rest : Bytes}
    (h : Takes escape text (· = bytes) rest) :
    Takes (character start) (ascii '\\' :: text) (· = some bytes) rest := by
  have hline : isLineEnd (ascii '\\') = false := by decide
  have hquote : ascii '\\' ≠ ascii '"' := by decide
  have hlow : ¬ (0x80 : UInt8) ≤ ascii '\\' := by decide
  apply Takes.peek_bind
  simp only [List.head?_cons, hline, Bool.false_eq_true, if_false]
  refine (Takes.advance (ascii '\\') _).bind fun _ _ => ?_
  simp only [hquote, hlow, if_false, if_true]
  exact h.map fun _ hbytes => congrArg some hbytes

theorem takes_character_raw {start : Location} {ch : Char} (rest : Bytes)
    (h : mustEscape ch = false) :
    Takes (character start) (String.utf8EncodeChar ch ++ rest)
      (· = some (String.utf8EncodeChar ch)) rest := by
  by_cases hsmall : ch.toNat < 0x80
  · obtain ⟨b, hb⟩ : ∃ b : UInt8, b.toNat = ch.toNat :=
      ⟨UInt8.ofNat ch.toNat, by rw [UInt8.toNat_ofNat', Nat.mod_eq_of_lt (by omega)]⟩
    obtain rfl : Char.ofNat b.toNat = ch := by rw [hb, Char.ofNat_toNat]
    have hlow : b.toNat < 0x80 := by omega
    rw [← Bool.not_eq_true, mustEscape_byte hlow] at h
    simp only [not_or, Bool.not_eq_true] at h
    obtain ⟨hquote, hbackslash, hline⟩ := h
    have hascii : ¬ (0x80 : UInt8) ≤ b := by simpa [UInt8.le_iff_toNat_le] using hlow
    rw [Utf8.encode_byte hlow]
    apply Takes.peek_bind
    simp only [List.cons_append, List.head?_cons, hline, Bool.false_eq_true, if_false]
    refine (Takes.advance b _).bind fun _ _ => ?_
    simp only [hquote, hbackslash, hascii, if_false]
    exact .pure rfl
  · obtain ⟨first, more, hencode, hfirst, hsequence⟩ :=
      Utf8.exists_sequence (by omega : 0x80 ≤ ch.toNat)
    have hhigh : (0x80 : UInt8) ≤ first := by simpa [UInt8.le_iff_toNat_le] using hfirst
    have hline : isLineEnd first = false := by
      simp only [isLineEnd, Bool.or_eq_false_iff, beq_eq_false_iff_ne]
      constructor <;> rintro rfl <;> exact absurd hfirst (by decide)
    have hquote : first ≠ ascii '"' := by
      intro heq
      subst heq
      exact absurd hfirst (by decide)
    rw [hencode]
    apply Takes.peek_bind
    simp only [List.cons_append, List.head?_cons, hline, Bool.false_eq_true, if_false]
    refine (Takes.advance first _).bind fun _ _ => ?_
    simp only [hquote, hhigh, if_false, if_true]
    exact (takes_sequence rest hsequence).map fun _ hbytes => congrArg some hbytes

/-- Every spelling of a character is taken. -/
theorem takes_character (start : Location) {ch : Char} {word : Bytes} (rest : Bytes)
    (h : CharSpelling ch word) :
    Takes (character start) (word ++ rest) (· = some (String.utf8EncodeChar ch)) rest := by
  cases h with
  | raw _ hplain => exact takes_character_raw rest hplain
  | short letter b hmeans =>
    rw [Utf8.encode_byte (toNat_of_shortEscape hmeans).1]
    exact takes_character_escape (takes_escape_short rest hmeans)
  | unit run code hunit hwhole =>
    rw [← encoded_codeUnit hunit hwhole]
    exact takes_character_escape (takes_escape_unit rest hunit hwhole)
  | pair first second high low hunit hunit' hhigh hlow =>
    rw [← encoded_pairedCode hhigh hlow]
    exact takes_character_escape (takes_escape_pair rest hunit hunit' hhigh hlow)

theorem takes_character_quote (start : Location) (rest : Bytes) :
    Takes (character start) (ascii '"' :: rest) (· = none) rest := by
  have hline : isLineEnd (ascii '"') = false := by decide
  apply Takes.peek_bind
  simp only [List.head?_cons, hline, Bool.false_eq_true, if_false]
  refine (Takes.advance (ascii '"') _).bind fun _ _ => ?_
  simp only [if_true]
  exact .pure rfl

/-! ## §4 Strings -/

theorem progresses_character (start : Location) : Progresses fun _ => character start := by
  intro _ c bytes c' h
  obtain ⟨ch, word, hspells, -, hsplit⟩ := split_of_character h
  have := List.length_pos_iff.mpr hspells.ne_nil
  rw [hsplit, List.length_append]
  omega

theorem textSpelling_of_repeats {start : Location} {earlier later : List Bytes} {c c' : Cursor}
    (h : Repeats (fun _ => character start) earlier c later c') :
    ∃ characters body, TextSpelling characters body ∧
      characters.map String.utf8EncodeChar = later ∧ c.rest = body ++ ascii '"' :: c'.rest := by
  induction h with
  | stop hfound => exact ⟨[], [], .nil, rfl, split_of_character hfound⟩
  | next hfound _ ih =>
    obtain ⟨ch, word, hspells, rfl, hsplit⟩ := split_of_character hfound
    obtain ⟨characters, body, hbody, rfl, hsplit'⟩ := ih
    refine ⟨ch :: characters, word ++ body, .cons hspells hbody, rfl, ?_⟩
    rw [hsplit, hsplit', List.append_assoc]

theorem repeats_of_textSpelling (start : Location) {characters : List Char} {body : Bytes}
    (rest : Bytes) (h : TextSpelling characters body) :
    ∀ (earlier : List Bytes) (location : Location),
    ∃ location', Repeats (fun _ => character start) earlier ⟨body ++ ascii '"' :: rest, location⟩
      (characters.map String.utf8EncodeChar) ⟨rest, location'⟩ := by
  induction h with
  | nil =>
    intro earlier location
    obtain ⟨_, ⟨_, location'⟩, hrun, rfl, rfl⟩ := takes_character_quote start rest location
    exact ⟨location', .stop hrun⟩
  | @cons ch characters word body hspells _ ih =>
    intro earlier location
    obtain ⟨_, ⟨_, location₁⟩, hrun, rfl, rfl⟩ :=
      takes_character start (body ++ ascii '"' :: rest) hspells location
    obtain ⟨location₂, hlater⟩ := ih (String.utf8EncodeChar ch :: earlier) location₁
    rw [List.append_assoc]
    exact ⟨location₂, .next hrun hlater⟩

/-- What is read as a string is a spelling of the characters that it denotes. -/
theorem split_of_string {c c' : Cursor} {l : Literal} (hquote : c.rest.head? = some (ascii '"'))
    (h : string.run c = .ok (l, c')) :
    ∃ characters body, TextSpelling characters body ∧
      l = .string c.location (characters.flatMap String.utf8EncodeChar) ∧
        c.rest = ascii '"' :: (body ++ ascii '"' :: c'.rest) := by
  obtain ⟨start, _, hposition, h⟩ := bind_ok.mp h
  obtain ⟨rfl, rfl⟩ := position_ok.mp hposition
  obtain ⟨_, _, hadvance, h⟩ := bind_ok.mp h
  obtain rfl := advance_ok.mp hadvance
  obtain ⟨pieces, middle, hpieces, h⟩ := bind_ok.mp h
  obtain ⟨rfl, rfl⟩ := pure_ok.mp h
  obtain ⟨characters, body, hbody, rfl, hsplit⟩ :=
    textSpelling_of_repeats ((many_ok (progresses_character _)).mp hpieces)
  rw [← List.flatMap_def]
  refine ⟨characters, body, hbody, rfl, ?_⟩
  rw [rest_of_head? hquote, hsplit]

/-- Every spelling is read up to the closing quote, and denotes its characters. -/
theorem run_string (start : Location) {characters : List Char} {body : Bytes} (rest : Bytes)
    (h : TextSpelling characters body) :
    ∃ place, string.run ⟨ascii '"' :: (body ++ ascii '"' :: rest), start⟩ =
      .ok (.string start (characters.flatMap String.utf8EncodeChar), ⟨rest, place⟩) := by
  obtain ⟨place, hrepeats⟩ :=
    repeats_of_textSpelling start rest h [] (start.after (ascii '"') (body ++ ascii '"' :: rest))
  have hmany := (many_ok (progresses_character start)).mpr hrepeats
  refine ⟨place, bind_ok.mpr ⟨start, _, rfl, bind_ok.mpr ⟨(), _, rfl, ?_⟩⟩⟩
  refine bind_ok.mpr ⟨_, _, hmany, ?_⟩
  rw [← List.flatMap_def]
  rfl

/-- A string literal is read as one token; it denotes what its characters encode. -/
theorem read_of_string {c c' : Cursor} {l : Literal} (hquote : c.rest.head? = some (ascii '"'))
    (h : string.run c = .ok (l, c')) :
    ∃ characters : List Char,
      l = .string c.location (characters.flatMap String.utf8EncodeChar) ∧
        Read [.string (characters.flatMap String.utf8EncodeChar)] c.rest c'.rest := by
  obtain ⟨characters, body, hbody, hliteral, hsplit⟩ := split_of_string hquote h
  refine ⟨characters, hliteral, ?_⟩
  have hgap : Gap c.rest ((ascii '"' :: body ++ [ascii '"']) ++ c'.rest) := by
    rw [hsplit]
    simpa using Gap.refl _
  exact read_token hgap (.string characters body hbody) trivial

theorem takes_string {text word : Bytes} (rest : Bytes) (h : (Token.string text).Spells word) :
    Takes string (word ++ rest) (fun l => ∃ location, l = .string location text) rest := by
  cases h with
  | string characters body hbody =>
    intro start
    obtain ⟨place, hrun⟩ := run_string start rest hbody
    have hword : ascii '"' :: body ++ [ascii '"'] ++ rest =
        ascii '"' :: (body ++ ascii '"' :: rest) := by simp
    rw [hword]
    exact ⟨_, ⟨rest, place⟩, hrun, ⟨start, rfl⟩, rfl⟩

end GraphQL.Reading
