/-
GraphQL.Proofs.Grammar.Printed — the printed words of tokens, and printed texts
with any ignored text between the words.

  §1 Words     — decimal numerals, strings quoted as in JSON texts.
  §2 Integers  — a decimal numeral denotes its number.
  §3 Strings   — every byte is written as itself or as an escape of it.
  §4 Texts     — words apart where they would run together are a layout.

Doubles have no printed word here; `Token.Printable` leaves them out.
-/
import GraphQL.Json.Writer
import GraphQL.Proofs.Grammar.Layout
import GraphQL.Proofs.Text.Utf8

namespace GraphQL

/-! ## §1 Words -/

/-- The printed word of a token; a double has none. -/
def Token.text : Token → Bytes
  | .punctuator sign => [sign.byte]
  | .name word => word
  | .int n => decimalInt n.toInt
  | .float _ => []
  | .string text => Json.quotedText text

/-- The token has a printed word that spells it. -/
def Token.Printable : Token → Prop
  | .name word => isName word = true
  | .string text => Utf8.WellFormed text
  | .float _ => False
  | .punctuator _ | .int _ => True

/-- Name bytes right after the word of the token would be taken for more of it. -/
def Token.isOpen : Token → Bool
  | .name _ | .int _ | .float _ => true
  | .punctuator _ | .string _ => false

/-- The printed words of two neighbours would run together. -/
def Token.Fuses (first second : Token) : Prop :=
  first.isOpen = true ∧ ∃ b ∈ second.text.head?, isNameByte b = true

/-- The printed words with `gap i` before the word at `i`, and a last gap after
all words. -/
def printed (gap : Nat → Bytes) : List Token → Bytes
  | [] => gap 0
  | t :: ts => gap 0 ++ (t.text ++ printed (fun i => gap (i + 1)) ts)

/-- The gaps are ignored text, and not empty where words would run together. -/
structure Separates (gap : Nat → Bytes) (tokens : List Token) : Prop where
  ignored : ∀ i ≤ tokens.length, Ignored (gap i)
  apart : ∀ i first second, tokens[i]? = some first → tokens[i + 1]? = some second →
    first.Fuses second → gap (i + 1) ≠ []

/-! ## §2 Integers -/

theorem ascii_toNat {c : Char} (h : c.toNat < 256) : (ascii c).toNat = c.toNat := by
  show c.val.toUInt8.toNat = c.val.toNat
  rw [UInt32.toNat_toUInt8]
  exact Nat.mod_eq_of_lt h

theorem toNat_of_isDigit {c : Char} (h : c.isDigit = true) : 48 ≤ c.toNat ∧ c.toNat ≤ 57 := by
  simp only [Char.isDigit, Bool.and_eq_true, decide_eq_true_eq] at h
  exact h

theorem isDigit_ascii {c : Char} (h : c.isDigit = true) : isDigit (ascii c) = true := by
  obtain ⟨hlow, hhigh⟩ := toNat_of_isDigit h
  have hc := ascii_toNat (by omega : c.toNat < 256)
  have hbounds : (ascii '0').toNat = 48 ∧ (ascii '9').toNat = 57 := by decide
  simp only [isDigit, Bool.and_eq_true, decide_eq_true_eq, UInt8.le_iff_toNat_le]
  omega

/-- Digits as bytes and as characters denote the same number. -/
theorem foldl_digitValue {digits : List Char} (h : ∀ c ∈ digits, c.isDigit = true) : ∀ n : Nat,
    (digits.map ascii).foldl (fun value d => value * 10 + digitValue d) n =
      Nat.ofDigitChars 10 digits n := by
  induction digits with
  | nil => simp
  | cons c rest ih =>
    intro n
    obtain ⟨hc, hrest⟩ := List.forall_mem_cons.mp h
    have hvalue : digitValue (ascii c) = c.toNat - '0'.toNat := by
      have := (toNat_of_isDigit hc).2
      rw [digitValue, ascii_toNat (by omega)]
      rfl
    rw [List.map_cons, List.foldl_cons, ih hrest, Nat.ofDigitChars_cons, hvalue, Nat.mul_comm n]

theorem isDigits_decimal (n : Nat) : IsDigits (decimal n) := by
  refine ⟨by simp [decimal, Nat.toDigits_ne_nil], fun d hd => ?_⟩
  obtain ⟨c, hc, rfl⟩ := List.mem_map.mp hd
  exact isDigit_ascii (Nat.isDigit_of_mem_toDigits (by decide) (by decide) hc)

theorem digitsValue_decimal (n : Nat) : digitsValue (decimal n) = n := by
  have hdigits : ∀ c ∈ Nat.toDigits 10 n, c.isDigit = true :=
    fun c hc => Nat.isDigit_of_mem_toDigits (by decide) (by decide) hc
  rw [digitsValue, decimal, foldl_digitValue hdigits, Nat.ofDigitChars_ten_toDigits]

theorem spells_int (n : Int64) : (Token.int n).Spells (decimalInt n.toInt) := by
  have hwritten : Numeral.Written
      ⟨decide (n.toInt < 0), decimal n.toInt.natAbs, none, none⟩ :=
    ⟨isDigits_decimal _, by simp, by simp⟩
  have hvalue : Numeral.wholeValue
      ⟨decide (n.toInt < 0), decimal n.toInt.natAbs, none, none⟩ = n.toInt := by
    simp only [Numeral.wholeValue, digitsValue_decimal, decide_eq_true_eq]
    split <;> omega
  have htext : Numeral.text
      ⟨decide (n.toInt < 0), decimal n.toInt.natAbs, none, none⟩ = decimalInt n.toInt := by
    simp only [Numeral.text, decimalInt, decide_eq_true_eq]
    split <;> simp
  rw [← htext]
  exact .int n _ hwritten rfl hvalue

/-! ## §3 Strings -/

/-- The text writes a byte of ASCII: as itself, or as one of two kinds of escape. -/
def writesByte (b : UInt8) : Bytes → Bool
  | [] => false
  | [c] => c == b && !mustEscape (Char.ofNat b.toNat)
  | [backslash, letter] => backslash == ascii '\\' && Escape.shortEscape? letter == some b
  | backslash :: u :: digits => backslash == ascii '\\' && u == ascii 'u' && digits.length == 4 &&
      hexNumber? 0 digits == some b.toNat

theorem writesByte_escapeByte {b : UInt8} (h : b.toNat < 0x80) :
    writesByte b (Json.escapeByte b) = true := by
  have hall : ∀ b : UInt8, b.toNat < 0x80 → writesByte b (Json.escapeByte b) = true :=
    forall_byte (by decide +kernel)
  exact hall b h

theorem charSpelling_of_writesByte {b : UInt8} {word : Bytes} (hb : b.toNat < 0x80)
    (h : writesByte b word = true) : CharSpelling (Char.ofNat b.toNat) word := by
  have hwhole : Utf8.isSurrogate b.toNat = false := by
    simp only [Utf8.isSurrogate, Bool.and_eq_false_iff, decide_eq_false_iff_not]
    omega
  unfold writesByte at h
  split at h
  · cases h
  · simp only [Bool.and_eq_true, beq_iff_eq, Bool.not_eq_true'] at h
    obtain ⟨hc, hplain⟩ := h
    rw [hc, ← Utf8.encode_byte hb]
    exact .raw _ hplain
  · simp only [Bool.and_eq_true, beq_iff_eq] at h
    obtain ⟨rfl, hmeans⟩ := h
    exact .short _ b hmeans
  · simp only [Bool.and_eq_true, beq_iff_eq] at h
    obtain ⟨⟨⟨rfl, rfl⟩, hlength⟩, hcode⟩ := h
    exact .unit _ b.toNat ⟨hlength, hcode⟩ hwhole

theorem escapeByte_of_le {b : UInt8} (h : 0x80 ≤ b.toNat) : Json.escapeByte b = [b] := by
  have hall : ∀ b : UInt8, 0x80 ≤ b.toNat → Json.escapeByte b = [b] :=
    forall_byte (by decide +kernel)
  exact hall b h

theorem charSpelling_escaped (c : Char) :
    CharSpelling c ((String.utf8EncodeChar c).flatMap Json.escapeByte) := by
  by_cases hsmall : c.toNat < 0x80
  · have hb : (UInt8.ofNat c.toNat).toNat = c.toNat := by
      rw [UInt8.toNat_ofNat', Nat.mod_eq_of_lt (by omega)]
    have hspells := charSpelling_of_writesByte (by omega)
      (writesByte_escapeByte (b := UInt8.ofNat c.toNat) (by omega))
    rw [hb, Char.ofNat_toNat] at hspells
    simpa [Utf8.encode_ascii hsmall] using hspells
  · obtain ⟨first, continuation, hencode, hfirst, -, hcontinues⟩ :=
      Utf8.exists_sequence (by omega : 0x80 ≤ c.toNat)
    have hbytes : ∀ b ∈ String.utf8EncodeChar c, Json.escapeByte b = [b] := by
      rw [hencode, List.forall_mem_cons]
      refine ⟨escapeByte_of_le hfirst, fun b hb => escapeByte_of_le ?_⟩
      exact ((Utf8.isContinuation_iff b).mp (hcontinues b hb)).1
    rw [List.flatMap_congr hbytes, List.flatMap_singleton']
    exact .raw c (mustEscape_of_le (by omega))

theorem textSpelling_escaped (characters : List Char) : TextSpelling characters
    ((characters.flatMap String.utf8EncodeChar).flatMap Json.escapeByte) := by
  induction characters with
  | nil => exact .nil
  | cons c rest ih =>
    rw [List.flatMap_cons, List.flatMap_append]
    exact .cons (charSpelling_escaped c) ih

/-! ## §4 Texts -/

theorem Token.Printable.spells {t : Token} (h : t.Printable) : t.Spells t.text := by
  cases t with
  | punctuator sign => exact .punctuator sign
  | name word => exact .name word h
  | int n => exact spells_int n
  | float x => exact h.elim
  | string text =>
    obtain ⟨characters, rfl⟩ := h
    exact .string characters _ (textSpelling_escaped characters)

/-- No word goes on with ignored text. -/
theorem Ignored.head {text : Bytes} (h : Ignored text) :
    ∀ b ∈ text.head?, isNameByte b = false ∧ b ≠ ascii '.' := by
  have hall : ∀ b, Reading.isBlank b = true → isNameByte b = false ∧ b ≠ ascii '.' :=
    forall_byte (by decide +kernel)
  cases h with
  | nil => simp
  | blank hb _ => simpa using hall _ hb
  | comment => simp only [List.head?_cons, Option.mem_def, Option.some.injEq, forall_eq']; decide

theorem Token.BeginsWith.ne_point {t : Token} {b : UInt8} (h : t.BeginsWith b) : b ≠ ascii '.' := by
  intro heq
  subst heq
  cases t with
  | punctuator sign => cases sign <;> exact absurd h (by simp [Token.BeginsWith]; decide)
  | name _ | int _ | float _ | string _ => exact absurd h (by simp [Token.BeginsWith]; decide)

theorem Token.stopsAt {t : Token} {rest : Bytes} (h : t.isOpen = true →
    ∀ b ∈ rest.head?, isNameByte b = false ∧ b ≠ ascii '.') : t.StopsAt rest := by
  cases t with
  | punctuator _ | string _ => trivial
  | name _ => exact fun b hb => (h rfl b hb).1
  | int _ | float _ => exact h rfl

/-- Where neighbours would run together there is a gap, so the word stops. -/
theorem stopsAt_printed {gap : Nat → Bytes} {t : Token} {ts : List Token}
    (hgap : Separates gap (t :: ts)) (hts : ∀ u ∈ ts, u.Printable) :
    t.StopsAt (printed (fun i => gap (i + 1)) ts) := by
  refine t.stopsAt fun hopen => ?_
  have hignored : Ignored (gap 1) := hgap.ignored 1 (by simp)
  cases ts with
  | nil => exact hignored.head
  | cons u more =>
    rw [printed]
    cases hempty : gap 1 with
    | cons b rest =>
      rw [hempty] at hignored
      simpa using hignored.head
    | nil =>
      obtain ⟨b, word, hword, hbegins⟩ := (hts u (by simp)).spells.cons
      have hname : isNameByte b = false := by
        rw [← Bool.not_eq_true]
        exact fun hb => hgap.apart 0 t u rfl rfl ⟨hopen, b, by simp [hword], hb⟩ hempty
      simpa [hword] using ⟨hname, hbegins.ne_point⟩

/-- A printed text is a layout of its tokens. -/
theorem laid_printed {ts : List Token} : ∀ {gap : Nat → Bytes}, Separates gap ts →
    (∀ t ∈ ts, t.Printable) → Laid ts (printed gap ts) (gap ts.length) := by
  induction ts with
  | nil => exact fun _ _ => rfl
  | cons t ts ih =>
    intro gap hgap hprintable
    obtain ⟨ht, hts⟩ := List.forall_mem_cons.mp hprintable
    have hrest : Separates (fun i => gap (i + 1)) ts :=
      ⟨fun i hi => hgap.ignored (i + 1) (Nat.succ_le_succ hi),
        fun i first second hfirst hsecond => hgap.apart (i + 1) first second hfirst hsecond⟩
    exact ⟨gap 0, t.text, _, rfl, hgap.ignored 0 (Nat.zero_le _), ht.spells,
      stopsAt_printed hgap hts, ih hrest hts⟩

theorem laidOut_printed {gap : Nat → Bytes} {tokens : List Token} (hgap : Separates gap tokens)
    (hprintable : ∀ t ∈ tokens, t.Printable) : LaidOut tokens (printed gap tokens) :=
  ⟨_, laid_printed hgap hprintable, .closed (hgap.ignored _ (Nat.le_refl _))⟩

end GraphQL
