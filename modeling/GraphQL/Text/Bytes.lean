/-
GraphQL.Text.Bytes — text as the engine sees it.

Queries, names and messages are lists of bytes: a query need not be
well-formed UTF-8, columns count bytes, and a message may quote one byte of
a longer character.

  §1 Bytes of text   — `utf8` and `ascii` bring literal text into this form.
  §2 Classes         — the bytes of names, digits and blanks.
  §3 Messages        — decimal numerals, quoting and the NUL rule.
-/

namespace GraphQL

/-! ## §1 Bytes of text -/

/-- A text, as its bytes. -/
abbrev Bytes := List UInt8

/-- The bytes of a string in UTF-8. -/
def utf8 (text : String) : Bytes := text.toList.flatMap String.utf8EncodeChar

/-- The byte of an ASCII character. -/
def ascii (c : Char) : UInt8 := c.val.toUInt8

/-! ## §2 Classes -/

/-- Decimal digits. -/
def isDigit (b : UInt8) : Bool := ascii '0' ≤ b && b ≤ ascii '9'

/-- Bytes that may begin a name: ASCII letters and the underscore. -/
def isNameStart (b : UInt8) : Bool :=
  (ascii 'a' ≤ b && b ≤ ascii 'z') || (ascii 'A' ≤ b && b ≤ ascii 'Z') || b == ascii '_'

/-- Bytes that may continue a name. -/
def isNameByte (b : UInt8) : Bool := isNameStart b || isDigit b

/-- A name is a start byte followed by name bytes. -/
def isName : Bytes → Bool
  | [] => false
  | first :: rest => isNameStart first && rest.all isNameByte

/-- The number a digit stands for; meaningful for digits only. -/
def digitValue (b : UInt8) : Nat := b.toNat - (ascii '0').toNat

/-- The number a run of digits denotes; the empty run denotes zero. -/
def digitsValue (digits : Bytes) : Nat :=
  digits.foldl (fun value d => value * 10 + digitValue d) 0

/-! ## §3 Messages -/

/-- A natural number in decimal, without leading zeros. -/
def decimal (n : Nat) : Bytes := (Nat.toDigits 10 n).map ascii

/-- An integer in decimal, with a minus sign when it is negative. -/
def decimalInt (n : Int) : Bytes :=
  if n < 0 then ascii '-' :: decimal n.natAbs else decimal n.natAbs

/-- Quoted the way messages quote names: a grave accent before, an apostrophe after. -/
def quoted (name : Bytes) : Bytes := ascii '\x60' :: name ++ [ascii '\x27']

/-- The texts with `separator` between each two neighbours. -/
def joined (separator : Bytes) (texts : List Bytes) : Bytes :=
  (texts.intersperse separator).flatten

/-- Quoted names in parentheses, separated by a comma and a space. -/
def quotedNames (names : List Bytes) : Bytes :=
  ascii '(' :: joined (utf8 ", ") (names.map quoted) ++ [ascii ')']

/-- A count with its adjective and noun; the noun takes an `s` unless the count is one. -/
def countText (n : Nat) (adjective noun : Bytes) : Bytes :=
  decimal n ++ [ascii ' '] ++ adjective ++ [ascii ' '] ++ noun
    ++ (if n = 1 then [] else [ascii 's'])

/-- A raised message ends before its first NUL byte. -/
def untilNul (text : Bytes) : Bytes := text.takeWhile (· != 0)

end GraphQL
