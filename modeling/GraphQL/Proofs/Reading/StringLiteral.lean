/-
GraphQL.Proofs.Reading.StringLiteral — which texts are read as strings, and as which.

  §1 Digits      — a code unit is written with four hexadecimal digits.
  §2 Characters  — the ways to write a character, from the character.
  §3 Strings     — string literals are decoded exactly.

The grammar of tokens goes from what is written to the character that it denotes.
Here the character comes first: its number says which escapes there are and with
which digits, so that nothing is left to a reader of escapes.
-/
import GraphQL.Proofs.Reading.Quoted
import GraphQL.Proofs.Text.Ranges
import GraphQL.Proofs.Text.WellFormed

namespace GraphQL

/-! ## §1 Digits -/

/-- The byte is the hexadecimal digit for the number, small or capital. -/
def HexDigit (x : Nat) (b : UInt8) : Prop :=
  (utf8 "0123456789abcdef")[x]? = some b ∨ (utf8 "0123456789ABCDEF")[x]? = some b

instance (x : Nat) (b : UInt8) : Decidable (HexDigit x b) :=
  inferInstanceAs (Decidable (_ ∨ _))

/-- The digits of a number below `16 ^ 4`. -/
def FourDigits (n : Nat) (digits : Bytes) : Prop :=
  ∃ a b c d, digits = [a, b, c, d] ∧ HexDigit (n / 0x1000) a ∧ HexDigit (n / 0x100 % 0x10) b ∧
    HexDigit (n / 0x10 % 0x10) c ∧ HexDigit (n % 0x10) d

theorem HexDigit.lt {x : Nat} {b : UInt8} (h : HexDigit x b) : x < 16 := by
  have hlength : (utf8 "0123456789abcdef").length = 16 ∧ (utf8 "0123456789ABCDEF").length = 16 := by
    decide +kernel
  rcases h with h | h
  · exact hlength.1 ▸ (List.getElem?_eq_some_iff.1 h).1
  · exact hlength.2 ▸ (List.getElem?_eq_some_iff.1 h).1

theorem HexDigit.isAscii {x : Nat} {b : UInt8} (h : HexDigit x b) : b.toNat < 0x80 := by
  have hascii : Utf8.IsAscii (utf8 "0123456789abcdef") ∧
      Utf8.IsAscii (utf8 "0123456789ABCDEF") := by
    unfold Utf8.IsAscii
    decide +kernel
  rcases h with h | h
  · exact hascii.1 b (List.mem_of_getElem? h)
  · exact hascii.2 b (List.mem_of_getElem? h)

theorem hexValue?_eq_some {x : Nat} {b : UInt8} :
    Escape.hexValue? b = some x ↔ HexDigit x b := by
  constructor
  · intro h
    have hall : ∀ b : UInt8, ∀ x ∈ Escape.hexValue? b, HexDigit x b :=
      forall_byte (by decide +kernel)
    exact hall b x h
  · intro h
    have hall : ∀ x < 16, (∀ b ∈ (utf8 "0123456789abcdef")[x]?, Escape.hexValue? b = some x) ∧
        ∀ b ∈ (utf8 "0123456789ABCDEF")[x]?, Escape.hexValue? b = some x := by decide +kernel
    exact h.elim ((hall x h.lt).1 b) ((hall x h.lt).2 b)

theorem hexNumber?_nil {value code : Nat} : hexNumber? value [] = some code ↔ value = code := by
  simp [hexNumber?]

theorem hexNumber?_cons {value code : Nat} {digit : UInt8} {rest : Bytes} :
    hexNumber? value (digit :: rest) = some code ↔
      ∃ x, HexDigit x digit ∧ hexNumber? (value * 16 + x) rest = some code := by
  simp only [← hexValue?_eq_some]
  rw [hexNumber?]
  cases Escape.hexValue? digit <;> simp

/-- Four digits denote the number of which they are the digits. -/
theorem isCodeUnit_iff {digits : Bytes} {code : Nat} :
    IsCodeUnit digits code ↔ FourDigits code digits := by
  constructor
  · rintro ⟨hlength, hnumber⟩
    obtain ⟨a, b, c, d, rfl⟩ : ∃ a b c d, digits = [a, b, c, d] := by
      match digits, hlength with
      | [a, b, c, d], _ => exact ⟨a, b, c, d, rfl⟩
    simp only [hexNumber?_cons, hexNumber?_nil] at hnumber
    obtain ⟨w, hw, x, hx, y, hy, z, hz, rfl⟩ := hnumber
    have := hw.lt; have := hx.lt; have := hy.lt; have := hz.lt
    refine ⟨a, b, c, d, rfl, ?_, ?_, ?_, ?_⟩
    · convert hw using 1; omega
    · convert hx using 1; omega
    · convert hy using 1; omega
    · convert hz using 1; omega
  · rintro ⟨a, b, c, d, rfl, ha, hb, hc, hd⟩
    refine ⟨rfl, ?_⟩
    simp only [hexNumber?_cons, hexNumber?_nil]
    exact ⟨_, ha, _, hb, _, hc, _, hd, by omega⟩

/-! ## §2 Characters -/

/-- The characters with an escape of two characters, and its letter. -/
def shortEscapes : List (Char × Char) :=
  [('"', '"'), ('\\', '\\'), ('/', '/'), ('\x08', 'b'), ('\x0C', 'f'), ('\n', 'n'), ('\r', 'r'),
    ('\t', 't')]

/-- The ways to write a character in a string literal. -/
inductive Written : Char → Bytes → Prop where
  /-- Its own bytes, unless it is a quote, a backslash or the end of a line. -/
  | raw (c : Char) (plain : c ≠ '"' ∧ c ≠ '\\' ∧ c ≠ '\n' ∧ c ≠ '\r') :
    Written c (String.utf8EncodeChar c)
  /-- A backslash and a letter. -/
  | short (c letter : Char) (known : (c, letter) ∈ shortEscapes) :
    Written c [ascii '\\', ascii letter]
  /-- One code unit, up to U+FFFF. -/
  | unit (c : Char) (digits : Bytes) (small : c.toNat ≤ 0xFFFF)
    (denotes : FourDigits c.toNat digits) : Written c (ascii '\\' :: ascii 'u' :: digits)
  /-- A pair of surrogates, from U+10000. -/
  | pair (c : Char) (first second : Bytes) (large : 0x10000 ≤ c.toNat)
    (high : FourDigits (0xD800 + (c.toNat - 0x10000) / 0x400) first)
    (low : FourDigits (0xDC00 + (c.toNat - 0x10000) % 0x400) second) :
    Written c (ascii '\\' :: ascii 'u' :: first ++ ascii '\\' :: ascii 'u' :: second)

/-- The characters are written one after another. -/
def TextWritten (characters : List Char) (body : Bytes) : Prop :=
  ∃ words, List.Forall₂ Written characters words ∧ body = words.flatten

theorem FourDigits.le {n : Nat} {digits : Bytes} (h : FourDigits n digits) : n ≤ 0xFFFF := by
  obtain ⟨_, _, _, _, -, hfirst, -⟩ := h
  have := hfirst.lt
  omega

theorem FourDigits.isAscii {n : Nat} {digits : Bytes} (h : FourDigits n digits) :
    Utf8.IsAscii digits := by
  obtain ⟨a, b, c, d, rfl, ha, hb, hc, hd⟩ := h
  exact .cons ha.isAscii
    (.cons hb.isAscii (.cons hc.isAscii (.cons hd.isAscii (List.forall_mem_nil _))))

theorem mustEscape_eq_false {c : Char} :
    mustEscape c = false ↔ c ≠ '"' ∧ c ≠ '\\' ∧ c ≠ '\n' ∧ c ≠ '\r' := by
  simp [mustEscape, and_assoc]

theorem mem_shortEscapes {letter b : UInt8} (h : Escape.shortEscape? letter = some b) :
    ∃ entry ∈ shortEscapes, Char.ofNat b.toNat = entry.1 ∧ letter = ascii entry.2 := by
  have hall : ∀ letter : UInt8, ∀ b ∈ Escape.shortEscape? letter,
      ∃ entry ∈ shortEscapes, Char.ofNat b.toNat = entry.1 ∧ letter = ascii entry.2 :=
    forall_byte (by decide +kernel)
  exact hall letter b h

theorem exists_shortEscape {c letter : Char} (h : (c, letter) ∈ shortEscapes) :
    ∃ b, Escape.shortEscape? (ascii letter) = some b ∧ Char.ofNat b.toNat = c := by
  have hall : ∀ entry ∈ shortEscapes,
      (Escape.shortEscape? (ascii entry.2)).map (fun b => Char.ofNat b.toNat) = some entry.1 := by
    decide +kernel
  exact Option.map_eq_some_iff.1 (hall _ h)

/-- Each half of a surrogate pair is told by the code point of the pair. -/
theorem of_pairedCode {high low : Nat} (hhigh : Escape.isHighSurrogate high = true)
    (hlow : Escape.isLowSurrogate low = true) :
    0x10000 ≤ Escape.pairedCode high low ∧ Escape.pairedCode high low ≤ 0x10FFFF ∧
      0xD800 + (Escape.pairedCode high low - 0x10000) / 0x400 = high ∧
      0xDC00 + (Escape.pairedCode high low - 0x10000) % 0x400 = low := by
  simp only [Escape.isHighSurrogate, Escape.isLowSurrogate, Bool.and_eq_true,
    decide_eq_true_eq] at hhigh hlow
  unfold Escape.pairedCode
  omega

/-- The halves of the pair for a code point are surrogates, and denote it. -/
theorem pairedCode_of_le {code : Nat} (hlarge : 0x10000 ≤ code) (hmost : code ≤ 0x10FFFF) :
    Escape.isHighSurrogate (0xD800 + (code - 0x10000) / 0x400) = true ∧
      Escape.isLowSurrogate (0xDC00 + (code - 0x10000) % 0x400) = true ∧
      Escape.pairedCode (0xD800 + (code - 0x10000) / 0x400)
        (0xDC00 + (code - 0x10000) % 0x400) = code := by
  have hhigh : (code - 0x10000) / 0x400 < 0x400 := by omega
  have hlow : (code - 0x10000) % 0x400 < 0x400 := Nat.mod_lt _ (by decide)
  refine ⟨?_, ?_, ?_⟩
  · simp only [Escape.isHighSurrogate, Bool.and_eq_true, decide_eq_true_eq]
    omega
  · simp only [Escape.isLowSurrogate, Bool.and_eq_true, decide_eq_true_eq]
    omega
  · unfold Escape.pairedCode
    omega

/-- The spellings of a character are the ways to write it. -/
theorem written_iff {c : Char} {word : Bytes} : Written c word ↔ CharSpelling c word := by
  constructor
  · intro h
    cases h with
    | raw plain => exact .raw c (mustEscape_eq_false.2 plain)
    | short letter known =>
      obtain ⟨b, hb, rfl⟩ := exists_shortEscape known
      exact .short _ b hb
    | unit digits _ denotes =>
      have hspelling := CharSpelling.unit digits c.toNat (isCodeUnit_iff.2 denotes)
        (Utf8.isSurrogate_toNat c).1
      rwa [Char.ofNat_toNat] at hspelling
    | pair first second large high low =>
      obtain ⟨hhigh, hlow, hcode⟩ := pairedCode_of_le large (Utf8.isSurrogate_toNat c).2
      have hspelling := CharSpelling.pair first second _ _ (isCodeUnit_iff.2 high)
        (isCodeUnit_iff.2 low) hhigh hlow
      rwa [hcode, Char.ofNat_toNat] at hspelling
  · intro h
    cases h with
    | raw _ plain => exact .raw c (mustEscape_eq_false.1 plain)
    | short letter b means =>
      obtain ⟨entry, hentry, hc, rfl⟩ := mem_shortEscapes means
      rw [hc]
      exact .short entry.1 entry.2 hentry
    | unit digits code denotes whole =>
      have hdigits := isCodeUnit_iff.1 denotes
      have hc := Utf8.toNat_ofNat (Nat.le_trans hdigits.le (by decide)) whole
      generalize Char.ofNat code = c at hc ⊢
      subst hc
      exact .unit c digits hdigits.le hdigits
    | pair first second high low denotes follows isHigh isLow =>
      obtain ⟨hlarge, hmost, hhigh, hlow⟩ := of_pairedCode isHigh isLow
      generalize Escape.pairedCode high low = code at hlarge hmost hhigh hlow ⊢
      have hwhole : Utf8.isSurrogate code = false := by
        simp only [Utf8.isSurrogate, Bool.and_eq_false_iff, decide_eq_false_iff_not]
        omega
      have hc := Utf8.toNat_ofNat hmost hwhole
      generalize Char.ofNat code = c at hc ⊢
      subst hc hhigh hlow
      exact .pair c first second hlarge (isCodeUnit_iff.1 denotes) (isCodeUnit_iff.1 follows)

theorem textWritten_iff {characters : List Char} {body : Bytes} :
    TextWritten characters body ↔ TextSpelling characters body := by
  constructor
  · rintro ⟨words, hwords, rfl⟩
    induction hwords with
    | nil => exact .nil
    | cons hword _ ih => exact .cons (written_iff.1 hword) ih
  · intro h
    induction h with
    | nil => exact ⟨[], .nil, rfl⟩
    | cons hword _ ih =>
      obtain ⟨words, hwords, rfl⟩ := ih
      exact ⟨_ :: words, .cons (written_iff.2 hword) hwords, rfl⟩

/-- What stands for itself is well-formed, and an escape is ASCII. -/
theorem Written.wellFormed {c : Char} {word : Bytes} (h : Written c word) :
    Utf8.WellFormed word := by
  have hmarks : (ascii '\\').toNat < 0x80 ∧ (ascii 'u').toNat < 0x80 := by decide
  cases h with
  | raw => exact ⟨[c], by simp⟩
  | short letter known =>
    have hall : ∀ entry ∈ shortEscapes, (ascii entry.2).toNat < 0x80 := by decide
    exact Utf8.IsAscii.wellFormed (.cons hmarks.1 (.cons (hall _ known) (List.forall_mem_nil _)))
  | unit digits _ denotes =>
    exact Utf8.IsAscii.wellFormed (.cons hmarks.1 (.cons hmarks.2 denotes.isAscii))
  | pair first second _ high low =>
    exact Utf8.IsAscii.wellFormed (.cons hmarks.1 (.cons hmarks.2 (high.isAscii.append
      (.cons hmarks.1 (.cons hmarks.2 low.isAscii)))))

theorem TextWritten.wellFormed {characters : List Char} {body : Bytes}
    (h : TextWritten characters body) : Utf8.WellFormed body := by
  obtain ⟨words, hwords, rfl⟩ := h
  induction hwords with
  | nil => exact .nil
  | cons hword _ ih => exact hword.wellFormed.append ih

/-! ## §3 Strings -/

namespace Reading

/-- String literals are decoded exactly.

A text after the opening quote is read as a string if it is a way to write some
characters and a closing quote. The literal is the encoding of those characters,
and the text after that quote is left; whatever else stands there is an error.
All that is read, and all that is denoted, is made of sequences that the table
of UTF-8 has. -/
theorem run_string_exact (start : Location) (text : Bytes) :
    (∀ literal rest,
      (∃ place, string.run ⟨ascii '"' :: text, start⟩ = .ok (literal, ⟨rest, place⟩)) ↔
      ∃ characters body, TextWritten characters body ∧ text = body ++ ascii '"' :: rest ∧
        literal = .string start (characters.flatMap String.utf8EncodeChar)) ∧
    ((∃ error, string.run ⟨ascii '"' :: text, start⟩ = .error error) ↔
      ¬ ∃ characters body rest, TextWritten characters body ∧ text = body ++ ascii '"' :: rest) ∧
    ∀ literal after, string.run ⟨ascii '"' :: text, start⟩ = .ok (literal, after) →
      ∃ body payload, text = body ++ ascii '"' :: after.rest ∧ Utf8.Ranged body ∧
        literal = .string start payload ∧ Utf8.Ranged payload := by
  have hsplit : ∀ literal after, string.run ⟨ascii '"' :: text, start⟩ = .ok (literal, after) →
      ∃ characters body, TextWritten characters body ∧ text = body ++ ascii '"' :: after.rest ∧
        literal = .string start (characters.flatMap String.utf8EncodeChar) := by
    intro literal after hrun
    obtain ⟨characters, body, hbody, hliteral, htext⟩ := split_of_string rfl hrun
    exact ⟨characters, body, textWritten_iff.2 hbody, (List.cons_eq_cons.1 htext).2, hliteral⟩
  refine ⟨fun literal rest => ⟨?_, ?_⟩, ⟨?_, ?_⟩, ?_⟩
  · rintro ⟨place, hrun⟩
    exact hsplit literal ⟨rest, place⟩ hrun
  · rintro ⟨characters, body, hbody, rfl, rfl⟩
    exact run_string start rest (textWritten_iff.1 hbody)
  · rintro ⟨error, herror⟩ ⟨characters, body, rest, hbody, rfl⟩
    obtain ⟨place, hrun⟩ := run_string start rest (textWritten_iff.1 hbody)
    rw [hrun] at herror
    cases herror
  · intro hnone
    cases hrun : string.run ⟨ascii '"' :: text, start⟩ with
    | error error => exact ⟨error, rfl⟩
    | ok result =>
      obtain ⟨characters, body, hbody, htext, -⟩ := hsplit result.1 result.2 hrun
      exact absurd ⟨characters, body, _, hbody, htext⟩ hnone
  · intro literal after hrun
    obtain ⟨characters, body, hbody, htext, hliteral⟩ := hsplit literal after hrun
    exact ⟨body, _, htext, Utf8.wellFormed_iff_ranged.1 hbody.wellFormed, hliteral,
      Utf8.wellFormed_iff_ranged.1 ⟨characters, rfl⟩⟩

end Reading

end GraphQL
