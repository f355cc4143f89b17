/-
GraphQL.Json.Writer — values as JSON texts.

  §1 Strings   — quotes and escapes; all but ASCII is written as it is.
  §2 Values    — on one line, or indented by two blanks a level.
-/
import GraphQL.Number.Significant
import GraphQL.Value.Basic

namespace GraphQL.Json

/-! ## §1 Strings -/

/-- A hexadecimal digit. -/
def hexDigit (n : Nat) : UInt8 := ascii (Nat.digitChar n)

/-- A byte of a string, escaped if it has to be. -/
def escapeByte (b : UInt8) : Bytes :=
  if b = ascii '"' then utf8 "\\\""
  else if b = ascii '\\' then utf8 "\\\\"
  else if b = 0x08 then utf8 "\\b"
  else if b = 0x09 then utf8 "\\t"
  else if b = 0x0A then utf8 "\\n"
  else if b = 0x0C then utf8 "\\f"
  else if b = 0x0D then utf8 "\\r"
  else if b < 0x20 then utf8 "\\u00" ++ [hexDigit (b.toNat / 16), hexDigit (b.toNat % 16)]
  else [b]

/-- A string in quotes. Bytes past ASCII are written as they are, also where they
are no UTF-8. -/
def quotedText (text : Bytes) : Bytes :=
  ascii '"' :: text.flatMap escapeByte ++ [ascii '"']

/-! ## §2 Values -/

/-- A line break with the indentation of a level, where lines are broken. -/
def lineBreak (broken : Bool) (level : Nat) : Bytes :=
  if broken then ascii '\n' :: List.replicate (2 * level) (ascii ' ') else []

/-- Parts between brackets, each on a line of its own where lines are broken. -/
def bracketed (broken : Bool) (level : Nat) (opening closing : UInt8) (parts : List Bytes) :
    Bytes :=
  if parts.isEmpty then [opening, closing]
  else
    let inner := lineBreak broken (level + 1)
    opening :: inner ++ joined (ascii ',' :: inner) parts ++ lineBreak broken level ++ [closing]

/-- What stands between a key and its value. -/
def colon (broken : Bool) : Bytes := if broken then utf8 ": " else utf8 ":"

mutual

/-- The text of a value at a level of indentation. -/
def render (broken : Bool) (level : Nat) : Value → Bytes
  | .null => utf8 "null"
  | .bool b => if b then utf8 "true" else utf8 "false"
  | .int n => decimalInt n.toInt
  | .uint n => decimal n.toNat
  | .float x => if x.isFinite then x.text 17 else utf8 "null"
  | .string text => quotedText text
  | .list items =>
    bracketed broken level (ascii '[') (ascii ']') (renderItems broken (level + 1) items)
  | .object members =>
    bracketed broken level (ascii '\x7b') (ascii '\x7d') (renderMembers broken (level + 1) members)

/-- The texts of the items of a list. -/
def renderItems (broken : Bool) (level : Nat) : List Value → List Bytes
  | [] => []
  | item :: rest => render broken level item :: renderItems broken level rest

/-- The texts of the members of an object, keys included. -/
def renderMembers (broken : Bool) (level : Nat) : List (Bytes × Value) → List Bytes
  | [] => []
  | (key, value) :: rest =>
    (quotedText key ++ colon broken ++ render broken level value)
      :: renderMembers broken level rest

end

/-- A value on one line. -/
def compact (value : Value) : Bytes := render false 0 value

/-- A value on lines indented by two blanks a level. -/
def indented (value : Value) : Bytes := render true 0 value

end GraphQL.Json

namespace GraphQL

/-- A value as a word of a log entry: strings as they are, double-precision
numbers with six digits, other values in JSON. -/
def Value.logWord : Value → Bytes
  | .string text => text
  | .float x => x.text 6
  | value => Json.compact value

end GraphQL
