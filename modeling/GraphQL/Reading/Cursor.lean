/-
GraphQL.Reading.Cursor — reading a query text from left to right.

  §1 Readings   — computations on what is left of the text.
  §2 Bytes      — looking at the next byte, taking it, requiring it.
  §3 Blanks     — what may stand between the tokens.
  §4 Runs       — names and other runs of bytes of one class.
  §5 Lists      — repeating a reading until it says that the list is complete.

A reading fails with the broken rule and a position; it never goes back.
-/
import GraphQL.Reading.Failure

namespace GraphQL

/-! ## §1 Readings -/

/-- What is left of a text, and the position where that begins. -/
structure Cursor where
  rest : Bytes
  location : Location

/-- The cursor one byte further on; at the end of the text it stays. -/
def Cursor.next (cursor : Cursor) : Cursor :=
  match cursor.rest with
  | [] => cursor
  | b :: rest => ⟨rest, cursor.location.after b rest⟩

/-- A computation that reads from the text, or refuses it. -/
abbrev Reading := StateT Cursor (Except SyntaxError)

namespace Reading

variable {α β : Type}

/-- Refuses the text at a position. -/
def failAt (problem : SyntaxProblem) (location : Location) : Reading α :=
  throw ⟨problem, location⟩

/-- The current position. -/
def position : Reading Location := do return (← get).location

/-- Refuses the text at the current position. -/
def fail (problem : SyntaxProblem) : Reading α := do failAt problem (← position)

/-! ## §2 Bytes -/

/-- The next byte, left in place; absent at the end of the text. -/
def peek : Reading (Option UInt8) := do return (← get).rest.head?

/-- Takes the next byte. -/
def advance : Reading Unit := modify Cursor.next

/-! ## §3 Blanks -/

/-- Bytes that may stand between tokens: space, tab, line ends and commas. -/
def isBlank (b : UInt8) : Bool :=
  b == ascii ' ' || b == ascii '\t' || b == ascii '\n' || b == ascii '\r' || b == ascii ','

/-- Line ends close a comment. -/
def isLineEnd (b : UInt8) : Bool := b == ascii '\n' || b == ascii '\r'

/-- Passes over blanks and comments; `inComment` tells that a comment is open. -/
def skipFrom (inComment : Bool) : Bytes → Location → Cursor
  | [], location => ⟨[], location⟩
  | b :: rest, location =>
    if inComment then skipFrom (!isLineEnd b) rest (location.after b rest)
    else if isBlank b then skipFrom false rest (location.after b rest)
    else if b == ascii '#' then skipFrom true rest (location.after b rest)
    else ⟨b :: rest, location⟩

/-- Passes over blanks and comments. -/
def skipBlanks : Reading Unit := modify fun cursor => skipFrom false cursor.rest cursor.location

/-- Takes the expected byte, after blanks. -/
def expect (b : UInt8) : Reading Unit := do
  skipBlanks
  let found ← peek
  if found = some b then advance else fail (.expectedByte b found)

/-- Takes the byte if it comes next after blanks, and tells whether it did. -/
def accept (b : UInt8) : Reading Bool := do
  skipBlanks
  if (← peek) = some b then
    advance
    return true
  else return false

/-! ## §4 Runs -/

/-- The longest run of bytes of a class; `taken` holds the bytes so far in
reverse. -/
def runFrom (member : UInt8 → Bool) (taken : Bytes) : Bytes → Location → Bytes × Cursor
  | [], location => (taken.reverse, ⟨[], location⟩)
  | b :: rest, location =>
    if member b then runFrom member (b :: taken) rest (location.after b rest)
    else (taken.reverse, ⟨b :: rest, location⟩)

/-- Takes the longest run of bytes of a class. -/
def takeRun (member : UInt8 → Bool) : Reading Bytes :=
  modifyGet fun cursor => runFrom member [] cursor.rest cursor.location

/-- Takes a name, after blanks. -/
def name : Reading Bytes := do
  skipBlanks
  let found ← peek
  if found.any isNameStart then takeRun isNameByte else fail (.expectedName found)

/-! ## §5 Lists -/

/-- Repeats `step`, which is shown the items so far, latest first, and gives
another one or tells that the list is complete. There is at most one step for
each byte of `bound`. -/
def manyFrom (step : List α → Reading (Option α)) :
    (bound : Bytes) → List α → Reading (List α)
  | [], items => return items.reverse
  | _ :: bound, items => do
    match ← step items with
    | none => return items.reverse
    | some item => manyFrom step bound (item :: items)

/-- The items that `step` gives until it tells that the list is complete. A
step that gives an item takes at least one byte, so one step for each byte left,
and one more, suffice: the text itself bounds the steps, and is not counted. -/
def many (step : List α → Reading (Option α)) : Reading (List α) := do
  manyFrom step (0 :: (← get).rest) []

/-- The items up to a closing byte, which is left in place. -/
def itemsUntil (closing : UInt8) (item : List α → Reading α) : Reading (List α) :=
  many fun items => do
    skipBlanks
    match ← peek with
    | none => fail (.unclosed closing)
    | some b => if b = closing then return none else some <$> item items

/-- One item or more in parentheses. -/
def parenthesised (item : List α → Reading α) : Reading (List α) := do
  expect (ascii '(')
  let items ← many fun items => do
    skipBlanks
    if (← peek) = some (ascii ')') && !items.isEmpty then return none else some <$> item items
  expect (ascii ')')
  return items

/-- One level of nesting: refused when the budget is used up, otherwise read
with what is left of it. -/
def nested (budget : Option α) (body : α → Reading β) : Reading β :=
  match budget with
  | none => fail .nestsTooDeeply
  | some inner => body inner

end Reading

end GraphQL
