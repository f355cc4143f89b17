/-
GraphQL.Text.Escape — what the escapes of quoted text stand for.

  §1 Code units   — hexadecimal digits and surrogate pairs.
  §2 Letters      — two-character escapes.

Query texts and JSON texts have the same escapes.
-/
import GraphQL.Text.Utf8

namespace GraphQL.Escape

/-! ## §1 Code units -/

/-- The number a hexadecimal digit stands for. -/
def hexValue? (b : UInt8) : Option Nat :=
  if isDigit b then some (digitValue b)
  else if ascii 'a' ≤ b && b ≤ ascii 'f' then some (b.toNat - (ascii 'a').toNat + 10)
  else if ascii 'A' ≤ b && b ≤ ascii 'F' then some (b.toNat - (ascii 'A').toNat + 10)
  else none

/-- The first half of a surrogate pair. -/
def isHighSurrogate (code : Nat) : Bool := 0xD800 ≤ code && code ≤ 0xDBFF

/-- The second half of a surrogate pair. -/
def isLowSurrogate (code : Nat) : Bool := 0xDC00 ≤ code && code ≤ 0xDFFF

/-- The code point of a surrogate pair. -/
def pairedCode (high low : Nat) : Nat := 0x10000 + (high - 0xD800) * 0x400 + (low - 0xDC00)

/-- The last six bits of a number under the marker `10`. -/
def continuationByte (bits : Nat) : UInt8 := UInt8.ofNat (0x80 ||| (bits &&& 0x3F))

/-- The UTF-8 bytes of a code point: a lead byte whose marker tells the length,
then six bits a byte. -/
def encoded (code : Nat) : Bytes :=
  if code < 0x80 then [UInt8.ofNat code]
  else if code < 0x800 then [UInt8.ofNat (0xC0 ||| (code >>> 6)), continuationByte code]
  else if code < 0x10000 then
    [UInt8.ofNat (0xE0 ||| (code >>> 12)), continuationByte (code >>> 6), continuationByte code]
  else
    [UInt8.ofNat (0xF0 ||| (code >>> 18)), continuationByte (code >>> 12),
      continuationByte (code >>> 6), continuationByte code]

/-! ## §2 Letters -/

/-- The byte that a two-character escape stands for, given its letter. -/
def shortEscape? (letter : UInt8) : Option UInt8 :=
  if letter = ascii '"' || letter = ascii '\\' || letter = ascii '/' then some letter
  else if letter = ascii 'b' then some 0x08
  else if letter = ascii 'f' then some 0x0C
  else if letter = ascii 'n' then some 0x0A
  else if letter = ascii 'r' then some 0x0D
  else if letter = ascii 't' then some 0x09
  else none

end GraphQL.Escape
