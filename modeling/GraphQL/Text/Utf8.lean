/-
GraphQL.Text.Utf8 — the byte sequences of UTF-8.

A lead byte announces how many continuation bytes follow; together they stand
for a code point, and only some code points may be written that way.

A sequence is ill-formed when it is cut short, when a shorter sequence
encodes the same number, when it encodes a surrogate, and when it goes past
U+10FFFF.
-/
import GraphQL.Text.Bytes

namespace GraphQL.Utf8

/-- Continuation bytes carry six bits under the marker `10`. -/
def isContinuation (b : UInt8) : Bool := b &&& 0xC0 == 0x80

/-- What a lead byte announces: how many continuation bytes follow, the bits
it contributes itself, and the least code point that needs this length. -/
structure Lead where
  following : Nat
  bits : Nat
  least : Nat

/-- The announcement of a lead byte, by its marker bits alone. -/
def lead? (b : UInt8) : Option Lead :=
  if b &&& 0xE0 == 0xC0 then some ⟨1, (b &&& 0x1F).toNat, 0x80⟩
  else if b &&& 0xF0 == 0xE0 then some ⟨2, (b &&& 0x0F).toNat, 0x800⟩
  else if b &&& 0xF8 == 0xF0 then some ⟨3, (b &&& 0x07).toNat, 0x10000⟩
  else none

/-- The code point of a sequence: the lead's bits, then six bits a byte. -/
def Lead.codePoint (lead : Lead) (continuation : Bytes) : Nat :=
  continuation.foldl (fun value b => value * 64 + (b &&& 0x3F).toNat) lead.bits

/-- Surrogates are reserved for pairing and stand for no character. -/
def isSurrogate (code : Nat) : Bool := 0xD800 ≤ code && code ≤ 0xDFFF

/-- A complete sequence stands for a character: not overlong, no surrogate,
at most U+10FFFF. -/
def Lead.admits (lead : Lead) (continuation : Bytes) : Bool :=
  let code := lead.codePoint continuation
  lead.least ≤ code && code ≤ 0x10FFFF && !isSurrogate code

/-- A text is well-formed when it is the encoding of some characters. -/
def WellFormed (text : Bytes) : Prop :=
  ∃ characters : List Char, text = characters.flatMap String.utf8EncodeChar

end GraphQL.Utf8
