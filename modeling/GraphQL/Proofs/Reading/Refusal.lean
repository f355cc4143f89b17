/-
GraphQL.Proofs.Reading.Refusal — the messages of refused query texts.

  §1 Messages   — what a message quotes, and when it is well-formed.
  §2 Documents  — the message of any text that is refused.

A message quotes names and numerals that were read, which are ASCII, and it may
quote the byte at which reading stopped. That byte is whatever the text has there,
and it is the only part of a message that need not be a character.
-/
import GraphQL.Proofs.Reading.Invariant

namespace GraphQL

/-! ## §1 Messages -/

namespace SyntaxProblem

/-- The byte of the query text that the message quotes, if it quotes one. -/
def strayByte? : SyntaxProblem → Option UInt8
  | .expectedByte _ found | .expectedName found | .expectedSelections found
  | .expectedValue found | .expectedDigit found | .unexpectedAfterNumber found => found
  | .invalidEscape found => some (found.getD 0)
  | _ => none

end SyntaxProblem

/-- Whether a text is plain is evaluated. -/
theorem isPlain_utf8 (text : String)
    (h : ((utf8 text).all fun b => b != 0 && b < 0x80) = true := by decide +kernel) :
    IsPlain (utf8 text) := by
  intro byte hbyte
  have hplain := List.all_eq_true.1 h byte hbyte
  simp only [Bool.and_eq_true, bne_iff_ne, decide_eq_true_eq] at hplain
  exact ⟨hplain.1, UInt8.lt_iff_toNat_lt.1 hplain.2⟩

theorem IsPlain.quoted {text : Bytes} (h : IsPlain text) : IsPlain (quoted text) := by
  have hopen : IsPlain [ascii '\x60'] := by simp [IsPlain]; decide
  have hclose : IsPlain [ascii '\x27'] := by simp [IsPlain]; decide
  exact (hopen.append h).append hclose

theorem isPlain_describeByte_none : IsPlain (describeByte none) := isPlain_utf8 _

/-- The wording quotes the byte, and the rest of it is plain. -/
structure SyntaxProblem.Quotes (wording : Bytes) (byte : UInt8) : Prop where
  split : ∃ before after, wording = before ++ byte :: ascii '\x27' :: after ∧
    IsPlain before ∧ IsPlain after

namespace SyntaxProblem

variable {problem : SyntaxProblem} {byte : UInt8}

theorem quotes_quoted {before : Bytes} (hbefore : IsPlain before) :
    Quotes (before ++ quoted [byte]) byte := by
  have hopen : IsPlain [ascii '\x60'] := by simp [IsPlain]; decide
  exact ⟨before ++ [ascii '\x60'], [], by simp [quoted], hbefore.append hopen, .nil⟩

theorem Quotes.append {wording after : Bytes} (h : Quotes wording byte) (hafter : IsPlain after) :
    Quotes (wording ++ after) byte := by
  obtain ⟨before, rest, rfl, hbefore, hrest⟩ := h.split
  exact ⟨before, rest ++ after, by simp, hbefore, hrest.append hafter⟩

/-- Apart from the byte of the query text, the wording is plain. -/
theorem quotes_of_strayByte (hnamed : IsPlain problem.named)
    (hstray : problem.strayByte? = some byte) : Quotes problem.wording byte := by
  cases problem with
  | expectedByte expected found =>
    obtain rfl : found = some byte := hstray
    exact quotes_quoted (((isPlain_utf8 _).append hnamed.quoted).append (isPlain_utf8 _))
  | expectedName found | expectedSelections found | expectedDigit found
  | unexpectedAfterNumber found =>
    obtain rfl : found = some byte := hstray
    exact quotes_quoted (isPlain_utf8 _)
  | expectedValue found =>
    obtain rfl : found = some byte := hstray
    exact (quotes_quoted (isPlain_utf8 _)).append (isPlain_utf8 _)
  | invalidEscape found =>
    obtain rfl : found.getD 0 = byte := Option.some.inj hstray
    have hopen : IsPlain [ascii '\x60', ascii '\\'] := by simp [IsPlain]; decide
    exact ⟨utf8 "Invalid escape sequence " ++ [ascii '\x60', ascii '\\'], [],
      by simp [wording, quoted], (isPlain_utf8 _).append hopen, .nil⟩
  | _ => cases hstray

theorem isPlain_wording (hnamed : IsPlain problem.named) (hstray : problem.strayByte? = none) :
    IsPlain problem.wording := by
  have hdollar : IsPlain [ascii '$'] := by simp [IsPlain]; decide
  cases problem with
  | unknownOperation text | duplicateOperation text | duplicateArgument text
  | duplicateInputField text | unclosed byte => exact (isPlain_utf8 _).append hnamed.quoted
  | duplicateVariable text => exact (isPlain_utf8 _).append (hdollar.append hnamed).quoted
  | variableInDefault text =>
    exact ((isPlain_utf8 _).append (hdollar.append hnamed).quoted).append (isPlain_utf8 _)
  | integerOutOfRange text => exact ((isPlain_utf8 _).append hnamed.quoted).append (isPlain_utf8 _)
  | floatOutOfRange text => exact (isPlain_utf8 _).append hnamed.quoted
  | expectedByte expected found =>
    obtain rfl : found = none := hstray
    exact (((isPlain_utf8 _).append hnamed.quoted).append (isPlain_utf8 _)).append
      isPlain_describeByte_none
  | expectedName found | expectedSelections found | expectedDigit found
  | unexpectedAfterNumber found =>
    obtain rfl : found = none := hstray
    exact (isPlain_utf8 _).append isPlain_describeByte_none
  | expectedValue found =>
    obtain rfl : found = none := hstray
    exact ((isPlain_utf8 _).append isPlain_describeByte_none).append (isPlain_utf8 _)
  | invalidEscape found => cases hstray
  | _ => exact isPlain_utf8 _

/-- The message is well-formed exactly if the byte that it quotes is ASCII. -/
theorem wellFormed_message_iff (hnamed : IsPlain problem.named) :
    Utf8.WellFormed problem.message ↔ ∀ byte ∈ problem.strayByte?, byte.toNat < 0x80 := by
  cases hstray : problem.strayByte? with
  | none => simpa [message] using (isPlain_wording hnamed hstray).isAscii.wellFormed.untilNul
  | some byte =>
    obtain ⟨before, after, hwording, hbefore, hafter⟩ := (quotes_of_strayByte hnamed hstray).split
    have hapostrophe : (ascii '\x27').toNat < 0x80 := by decide
    simp only [Option.mem_some_iff, forall_eq', message]
    constructor
    · intro hmessage
      by_contra hpast
      have hnonzero : ∀ b ∈ problem.wording, b ≠ 0 := by
        rw [hwording]
        simp only [List.mem_append, List.mem_cons]
        rintro b (hb | rfl | rfl | hb)
        · exact (hbefore b hb).1
        · rintro rfl
          exact hpast (by decide)
        · decide
        · exact (hafter b hb).1
      rw [untilNul_eq_self hnonzero, hwording] at hmessage
      exact Utf8.not_wellFormed_append hbefore.isAscii (by omega) hapostrophe hmessage
    · intro hascii
      rw [hwording]
      refine Utf8.WellFormed.untilNul (Utf8.IsAscii.wellFormed ?_)
      exact hbefore.isAscii.append ((hafter.isAscii.cons hapostrophe).cons hascii)

end SyntaxProblem

/-! ## §2 Documents -/

/-- What the problem of a refused text names is plain, wherever the text stands. -/
theorem Reading.isPlain_of_document {c : Cursor} {error : SyntaxError}
    (h : Reading.document.run c = .error error) : IsPlain error.problem.named :=
  (Keeps.document.of_error (I := ⟨fun _ => True, id⟩) trivial h).1

/-- A text that is refused is refused by the parser. -/
theorem Document.run_of_error {text : Bytes} {error : SyntaxError}
    (h : Document.ofText text = .error error) :
    Reading.document.run ⟨text, Location.start⟩ = .error error := by
  unfold Document.ofText at h
  split at h
  · cases h
  · rename_i hrun
    cases h
    exact hrun

/-- The message about a refused text is well-formed exactly if the byte that it quotes
is ASCII. -/
theorem SyntaxError.wellFormed_message_iff {text : Bytes} {error : SyntaxError}
    (h : Document.ofText text = .error error) :
    Utf8.WellFormed error.message ↔ ∀ byte ∈ error.problem.strayByte?, byte.toNat < 0x80 :=
  SyntaxProblem.wellFormed_message_iff (Reading.isPlain_of_document (Document.run_of_error h))

end GraphQL
