/-
GraphQL.Json.Reader — JSON texts as values.

  §1 Numbers   — integers that fit 64 bits, and double-precision numbers.
  §2 Strings   — UTF-8 without control characters, escapes among it.
  §3 Values    — all of JSON; a repeated key keeps its place and takes the
                 last value.

A reader gives what it read and the rest of the text, or nothing when the
text is no JSON there. Loops are bounded by the text that they begin at, one
step for each byte, and nesting by the length of the whole text.
-/
import GraphQL.Number.Numeral
import GraphQL.Number.Range
import GraphQL.Text.Escape
import GraphQL.Value.Basic

namespace GraphQL.Json

open Escape

/-- A reader of some part of a JSON text. -/
abbrev Reader (α : Type) := Bytes → Option (α × Bytes)

/-- Blanks between tokens. -/
def isBlank (b : UInt8) : Bool :=
  b == ascii ' ' || b == ascii '\t' || b == ascii '\n' || b == ascii '\r'

/-- A text without the blanks before it. -/
def skipBlanks (text : Bytes) : Bytes := text.dropWhile isBlank

/-! ## §1 Numbers -/

/-- Splits off one digit or more. -/
def digits : Reader Bytes := fun text =>
  let run := text.takeWhile isDigit
  if run.isEmpty then none else some (run, text.dropWhile isDigit)

/-- The whole part of a number: a zero alone, or digits that begin with another. -/
def wholePart : Reader Bytes := fun text =>
  match text with
  | [] => none
  | b :: rest => if b = ascii '0' then some ([b], rest) else digits text

/-- A fraction, if a point comes next. -/
def fractionPart : Reader (Option Bytes)
  | [] => some (none, [])
  | b :: rest =>
    if b = ascii '.' then (digits rest).map fun (run, rest) => (some run, rest)
    else some (none, b :: rest)

/-- An exponent, if its letter comes next. -/
def exponentPart : Reader (Option Numeral.Exponent)
  | [] => some (none, [])
  | b :: rest =>
    if b = ascii 'e' || b = ascii 'E' then
      let (sign, rest) := Numeral.splitExponentSign rest
      (digits rest).map fun (run, rest) => (some ⟨b, sign, run⟩, rest)
    else some (none, b :: rest)

/-- The value of a numeral. An integer takes a signed form when it is written
with a sign; one too large for 64 bits is a double-precision number. -/
def numberValue (numeral : Numeral) : Option Value :=
  let whole := numeral.wholeValue
  if numeral.isInteger && numeral.negative && fitsInt64 whole then
    some (.int (Int64.ofInt whole))
  else if numeral.isInteger && !numeral.negative && fitsUInt64 whole then
    some (.uint (UInt64.ofNat whole.toNat))
  else if numeral.nearest.isFinite then some (.float numeral.nearest)
  else none

/-- A number. -/
def number : Reader Value := fun text => do
  let (negative, unsigned) := Numeral.splitSign text
  let (whole, rest) ← wholePart unsigned
  let (fraction, rest) ← fractionPart rest
  let (exponent, rest) ← exponentPart rest
  let value ← numberValue ⟨negative, whole, fraction, exponent⟩
  return (value, rest)

/-! ## §2 Strings -/

/-- Four hexadecimal digits. -/
def codeUnit : Reader Nat
  | a :: b :: c :: d :: rest => do
    let a ← hexValue? a
    let b ← hexValue? b
    let c ← hexValue? c
    let d ← hexValue? d
    return (a * 0x1000 + b * 0x100 + c * 0x10 + d, rest)
  | _ => none

/-- The second half of a surrogate pair, written as another escape. -/
def lowSurrogate : Reader Nat
  | backslash :: letter :: rest => do
    if backslash = ascii '\\' && letter = ascii 'u' then
      let (low, rest) ← codeUnit rest
      if isLowSurrogate low then some (low, rest) else none
    else none
  | _ => none

/-- A unicode escape after its letter, with the second escape of a pair. -/
def unicodeEscape : Reader Bytes := fun text => do
  let (code, rest) ← codeUnit text
  if isHighSurrogate code then
    let (low, rest) ← lowSurrogate rest
    return (encoded (pairedCode code low), rest)
  else if isLowSurrogate code then none
  else return (encoded code, rest)

/-- An escape after its backslash. -/
def escape : Reader Bytes
  | [] => none
  | letter :: rest =>
    if letter = ascii 'u' then unicodeEscape rest
    else (shortEscape? letter).map fun b => ([b], rest)

/-- A multi-byte sequence. -/
def sequence (first : UInt8) : Reader Bytes := fun rest => do
  let lead ← Utf8.lead? first
  let continuation := rest.take lead.following
  if continuation.length = lead.following && continuation.all Utf8.isContinuation
      && lead.admits continuation then
    return (first :: continuation, rest.drop lead.following)
  else none

/-- One character of a string that is not its closing quote. -/
def character (first : UInt8) : Reader Bytes := fun rest =>
  if first = ascii '\\' then escape rest
  else if first < 0x20 then none
  else if first < 0x80 then some ([first], rest)
  else sequence first rest

/-- The characters up to the closing quote; `written` holds those before, in
reverse. There is at most one for each byte of `bound`. -/
def charactersFrom (written : Bytes) : (bound : Bytes) → Reader Bytes
  | [], _ => none
  | _, [] => none
  | _ :: bound, first :: rest =>
    if first = ascii '"' then some (written.reverse, rest)
    else match character first rest with
      | none => none
      | some (bytes, rest) => charactersFrom (bytes.reverse ++ written) bound rest

/-- A string, of which the opening quote comes next. -/
def string : Reader Bytes
  | [] => none
  | b :: rest => if b = ascii '"' then charactersFrom [] rest rest else none

/-! ## §3 Values -/

/-- A fixed word, standing for a value. -/
def word (spelling : String) (value : Value) : Reader Value := fun text =>
  if (utf8 spelling).isPrefixOf text then some (value, text.drop (utf8 spelling).length) else none

/-- The byte that must come next, after blanks. -/
def expect (b : UInt8) (text : Bytes) : Option Bytes :=
  match skipBlanks text with
  | [] => none
  | found :: rest => if found = b then some rest else none

/-- The byte comes next, after blanks. -/
def comesNext (b : UInt8) (text : Bytes) : Bool := (skipBlanks text).head? == some b

/-- The items of a list after its bracket; `value` reads one of them. There is at
most one for each byte of `bound`. -/
def itemsFrom (value : Reader Value) (items : List Value) :
    (bound : Bytes) → Reader (List Value)
  | [], _ => none
  | _ :: bound, text => do
    let (item, rest) ← value text
    if comesNext (ascii ',') rest then
      itemsFrom value (item :: items) bound (← expect (ascii ',') rest)
    else
      return ((item :: items).reverse, ← expect (ascii ']') rest)

/-- The members of an object after its brace; `value` reads one value. There is at
most one for each byte of `bound`. -/
def membersFrom (value : Reader Value) (members : Members) : (bound : Bytes) → Reader Members
  | [], _ => none
  | _ :: bound, text => do
    let (key, rest) ← string (skipBlanks text)
    let (item, rest) ← value (← expect (ascii ':') rest)
    let members := assign members key item
    if comesNext (ascii ',') rest then
      membersFrom value members bound (← expect (ascii ',') rest)
    else
      return (members, ← expect (ascii '}') rest)

/-- A list after its bracket. -/
def listFrom (value : Reader Value) : Reader Value := fun text =>
  if comesNext (ascii ']') text then (expect (ascii ']') text).map fun rest => (.list [], rest)
  else (itemsFrom value [] text text).map fun (items, rest) => (.list items, rest)

/-- An object after its brace. -/
def objectFrom (value : Reader Value) : Reader Value := fun text =>
  if comesNext (ascii '}') text then (expect (ascii '}') text).map fun rest => (.object [], rest)
  else
    (membersFrom value [] text text).map fun (members, rest) => (.object members, rest)

/-- A value, after blanks; `inner` reads the values inside it. -/
def valueWith (inner : Reader Value) : Reader Value := fun text =>
  match skipBlanks text with
  | [] => none
  | b :: rest =>
    if b = ascii '\x7b' then objectFrom inner rest
    else if b = ascii '[' then listFrom inner rest
    else if b = ascii '"' then (string (b :: rest)).map fun (text, rest) => (.string text, rest)
    else if b = ascii '-' || isDigit b then number (b :: rest)
    else if b = ascii 't' then word "true" (.bool true) (b :: rest)
    else if b = ascii 'f' then word "false" (.bool false) (b :: rest)
    else if b = ascii 'n' then word "null" .null (b :: rest)
    else none

/-- A value that nests less deep than the budget. -/
def value : (budget : Nat) → Reader Value
  | 0 => fun _ => none
  | budget + 1 => valueWith (value budget)

/-- A text without the byte order mark before it. -/
def skipMark (text : Bytes) : Bytes :=
  if [0xEF, 0xBB, 0xBF].isPrefixOf text then text.drop 3 else text

/-- The value of a JSON text. -/
def parse? (text : Bytes) : Option Value := do
  let body := skipMark text
  let (value, rest) ← value (body.length + 1) body
  if (skipBlanks rest).isEmpty then some value else none

end GraphQL.Json
