/-
GraphQL.Proofs.Grammar.Token — the tokens of query texts, and the words that
spell them.

  §1 Tokens     — punctuators, names, numbers and strings, by what they mean.
  §2 Numerals   — the numerals that the grammar of numbers derives.
  §3 Strings    — the ways to write each character between quotes.
  §4 Spellings  — the relation between a token and its words, and the bytes
                  that would make a word longer.

A token is told by its meaning, so a number and a string have many spellings:
leading zeros and exponents in the one, escapes in the other.
-/
import GraphQL.Reading.Document

namespace GraphQL

/-! ## §1 Tokens -/

/-- The punctuators of query texts. -/
inductive Punctuator where
  | bang
  | dollar
  | openParen
  | closeParen
  | colon
  | equals
  | openBracket
  | closeBracket
  | openBrace
  | closeBrace
deriving DecidableEq

/-- The byte of a punctuator. -/
def Punctuator.byte : Punctuator → UInt8
  | .bang => ascii '!'
  | .dollar => ascii '$'
  | .openParen => ascii '('
  | .closeParen => ascii ')'
  | .colon => ascii ':'
  | .equals => ascii '='
  | .openBracket => ascii '['
  | .closeBracket => ascii ']'
  | .openBrace => ascii '{'
  | .closeBrace => ascii '}'

/-- A token of a query text, by its meaning. -/
inductive Token where
  | punctuator (sign : Punctuator)
  | name (word : Bytes)
  | int (value : Int64)
  | float (value : Binary64)
  | string (text : Bytes)
deriving DecidableEq

/-! ## §2 Numerals -/

/-- One digit or more, and nothing else. -/
def IsDigits (digits : Bytes) : Prop := digits ≠ [] ∧ ∀ d ∈ digits, isDigit d = true

/-- An exponent as the grammar has it: a letter, perhaps a sign, digits. -/
structure Numeral.Exponent.Written (e : Numeral.Exponent) : Prop where
  letter : e.letter = ascii 'e' ∨ e.letter = ascii 'E'
  sign : ∀ s ∈ e.sign, s = ascii '+' ∨ s = ascii '-'
  digits : IsDigits e.digits

/-- A numeral as the grammar has it. -/
structure Numeral.Written (n : Numeral) : Prop where
  whole : IsDigits n.whole
  fraction : ∀ digits ∈ n.fraction, IsDigits digits
  exponent : ∀ e ∈ n.exponent, e.Written

/-! ## §3 Strings -/

/-- The number that hexadecimal digits denote after `value`, if all are digits. -/
def hexNumber? : Nat → Bytes → Option Nat
  | value, [] => some value
  | value, digit :: rest =>
    match Escape.hexValue? digit with
    | some x => hexNumber? (value * 16 + x) rest
    | none => none

/-- Four hexadecimal digits that denote a code unit. -/
def IsCodeUnit (digits : Bytes) (code : Nat) : Prop :=
  digits.length = 4 ∧ hexNumber? 0 digits = some code

/-- Characters that cannot stand for themselves between quotes. -/
def mustEscape (c : Char) : Bool := c == '"' || c == '\\' || c == '\n' || c == '\r'

theorem mustEscape_of_le {c : Char} (h : 0x80 ≤ c.toNat) : mustEscape c = false := by
  simp only [mustEscape, Bool.or_eq_false_iff, beq_eq_false_iff_ne]
  refine ⟨⟨⟨?_, ?_⟩, ?_⟩, ?_⟩ <;> rintro rfl <;> exact absurd h (by decide)

/-- The ways to write a character between quotes. -/
inductive CharSpelling : Char → Bytes → Prop where
  /-- Its own bytes. -/
  | raw (c : Char) (plain : mustEscape c = false) : CharSpelling c (String.utf8EncodeChar c)
  /-- An escape of two characters. -/
  | short (letter b : UInt8) (means : Escape.shortEscape? letter = some b) :
    CharSpelling (Char.ofNat b.toNat) [ascii '\\', letter]
  /-- One code unit that is no surrogate. -/
  | unit (digits : Bytes) (code : Nat) (denotes : IsCodeUnit digits code)
    (whole : Utf8.isSurrogate code = false) :
    CharSpelling (Char.ofNat code) (ascii '\\' :: ascii 'u' :: digits)
  /-- Two code units, a high surrogate and a low one. -/
  | pair (first second : Bytes) (high low : Nat) (denotes : IsCodeUnit first high)
    (follows : IsCodeUnit second low) (isHigh : Escape.isHighSurrogate high = true)
    (isLow : Escape.isLowSurrogate low = true) :
    CharSpelling (Char.ofNat (Escape.pairedCode high low))
      (ascii '\\' :: ascii 'u' :: first ++ ascii '\\' :: ascii 'u' :: second)

theorem CharSpelling.ne_nil {c : Char} {word : Bytes} (h : CharSpelling c word) : word ≠ [] := by
  cases h with
  | raw => exact String.utf8EncodeChar_ne_nil
  | short | unit | pair => simp

/-- Characters written one after another. -/
inductive TextSpelling : List Char → Bytes → Prop where
  | nil : TextSpelling [] []
  | cons {c : Char} {characters : List Char} {word rest : Bytes} :
    CharSpelling c word → TextSpelling characters rest →
      TextSpelling (c :: characters) (word ++ rest)

/-! ## §4 Spellings -/

/-- The words that spell a token. -/
inductive Token.Spells : Token → Bytes → Prop where
  | punctuator (sign : Punctuator) : Spells (.punctuator sign) [sign.byte]
  | name (word : Bytes) (lexical : isName word = true) : Spells (.name word) word
  | int (value : Int64) (n : Numeral) (written : n.Written) (integral : n.isInteger = true)
    (denotes : n.wholeValue = value.toInt) : Spells (.int value) n.text
  | float (value : Binary64) (n : Numeral) (written : n.Written) (fractional : n.isInteger = false)
    (denotes : n.toBinary64? = some value) : Spells (.float value) n.text
  | string (characters : List Char) (body : Bytes) (spelled : TextSpelling characters body) :
    Spells (.string (characters.flatMap String.utf8EncodeChar))
      (ascii '"' :: body ++ [ascii '"'])

/-- The text after a word does not make it longer: no name byte follows a name,
neither a name byte nor a point follows a number. -/
def Token.StopsAt : Token → Bytes → Prop
  | .name _, rest => ∀ b ∈ rest.head?, isNameByte b = false
  | .int _, rest | .float _, rest =>
    ∀ b ∈ rest.head?, isNameByte b = false ∧ b ≠ ascii '.'
  | .punctuator _, _ | .string _, _ => True

/-- The byte that a word of the token may begin with. -/
def Token.BeginsWith : Token → UInt8 → Prop
  | .punctuator sign, b => b = sign.byte
  | .name _, b => isNameStart b = true
  | .int _, b | .float _, b => b = ascii '-' ∨ isDigit b = true
  | .string _, b => b = ascii '"'

end GraphQL
