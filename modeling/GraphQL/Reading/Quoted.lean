/-
GraphQL.Reading.Quoted — string literals.

  §1 Raw characters   — multi-byte UTF-8 sequences, checked as they are taken.
  §2 Escapes          — two-character escapes and code units in hexadecimal.
  §3 Strings          — everything between two quotes on one line.

What a string literal denotes is always well-formed UTF-8: raw sequences are
checked, and surrogate escapes must come in pairs.
-/
import GraphQL.Document.Basic
import GraphQL.Reading.Cursor
import GraphQL.Text.Escape

namespace GraphQL.Reading

open Escape

/-! ## §1 Raw characters -/

/-- Takes continuation bytes. -/
def continuation : Nat → Reading Bytes
  | 0 => return []
  | count + 1 => do
    match ← peek with
    | none => fail .invalidUtf8
    | some b =>
      if Utf8.isContinuation b then
        advance
        let rest ← continuation count
        return b :: rest
      else fail .invalidUtf8

/-- Takes what must follow a lead byte, and gives the whole sequence. -/
def sequence (first : UInt8) : Reading Bytes :=
  match Utf8.lead? first with
  | none => fail .invalidUtf8
  | some lead => do
    let rest ← continuation lead.following
    if lead.admits rest then return first :: rest else fail .invalidUtf8

/-! ## §2 Escapes -/

/-- Takes hexadecimal digits; `value` is the number of those before. -/
def hexDigits : Nat → Nat → Reading Nat
  | 0, value => return value
  | count + 1, value => do
    match (← peek).bind hexValue? with
    | none => fail .invalidUnicodeEscape
    | some digit =>
      advance
      hexDigits count (value * 16 + digit)

/-- Takes the four digits of a code unit. -/
def codeUnit : Reading Nat := hexDigits 4 0

/-- Takes the second half of a pair, which must be an escape again. -/
def lowSurrogate : Reading Nat := do
  if (← get).rest.take 2 = [ascii '\\', ascii 'u'] then
    advance
    advance
    let low ← codeUnit
    if isLowSurrogate low then return low else fail .unpairedSurrogate
  else fail .unpairedSurrogate

/-- Takes the digits of a unicode escape, and the second escape of a pair. -/
def unicodeEscape : Reading Bytes := do
  let code ← codeUnit
  if isLowSurrogate code then fail .unpairedSurrogate
  else if isHighSurrogate code then do
    let low ← lowSurrogate
    return encoded (pairedCode code low)
  else return encoded code

/-- Takes the rest of an escape, the backslash being taken. -/
def escape : Reading Bytes := do
  let found ← peek
  advance
  if found = some (ascii 'u') then unicodeEscape
  else match found.bind shortEscape? with
    | some b => return [b]
    | none => fail (.invalidEscape found)

/-! ## §3 Strings -/

/-- Takes the next character of a string that began at `start`, or its closing
quote. -/
def character (start : Location) : Reading (Option Bytes) := do
  match ← peek with
  | none => failAt .unterminatedString start
  | some b =>
    if isLineEnd b then failAt .unterminatedString start
    else
      advance
      if b = ascii '"' then return none
      else if 0x80 ≤ b then some <$> sequence b
      else if b = ascii '\\' then some <$> escape
      else return some [b]

/-- Takes a string literal, of which the opening quote comes next. -/
def string : Reading Literal := do
  let start ← position
  advance
  let characters ← many fun _ => character start
  return .string start characters.flatten

end GraphQL.Reading
