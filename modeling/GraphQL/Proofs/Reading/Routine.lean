/-
GraphQL.Proofs.Reading.Routine — the parser as a program of routines that call each
other.

  §1 Code       — readings in sequence, loops, levels of nesting and calls.
  §2 Routines   — the code of every routine.
  §3 Scans      — the code of the loops over single bytes.
  §4 Machines   — the ends of code, with open levels and open calls counted.
  §5 Moments    — what a run comes to on its way.

The readings of this library recurse on a budget and their loops on the text, so they
end by construction and have no count that could get out of step. Here nothing bounds
a loop or a call: the machine counts the levels that are open, refuses one too many, and
need not come to an end.
-/
import GraphQL.Reading.Document
import Mathlib.Logic.Relation

namespace GraphQL.Reading

/-! ## §1 Code -/

/-- The parts of the parser that call each other. -/
inductive Routine : Type → Type where
  | operation : Routine Operation
  | variableDefinitions : Routine (List VariableDefinition)
  | type : Routine (TypeExpr Bytes)
  | selectionSet : Routine (List Field)
  | field : Routine Field
  | arguments : Routine (List (Entry Literal))
  | value (references : References) : Routine Literal
  | string : Routine Literal
  | number : Routine Literal
  | list (references : References) (location : Location) : Routine Literal
  | object (references : References) (location : Location) : Routine Literal

/-- A program for the parser. A loop takes turns until one of them gives no state for
the next turn; its result is the state of the last turn. -/
inductive Code : Type → Type 1 where
  /-- A reading that calls nothing and opens no level. -/
  | read {α : Type} (reading : Reading α) : Code α
  | andThen {α β : Type} (first : Code α) (rest : α → Code β) : Code β
  | loop {σ : Type} (turn : σ → Code (Option σ)) (state : σ) : Code σ
  /-- One level of nesting, open while the body runs. -/
  | level {α : Type} (body : Code α) : Code α
  | call {α : Type} (routine : Routine α) : Code α

namespace Code

instance : Monad Code where
  pure a := .read (pure a)
  bind := .andThen

instance : MonadLift Reading Code := ⟨.read⟩

variable {α : Type}

/-- One turn of `many`: the next item joins the earlier ones, latest first. -/
def itemTurn (step : List α → Code (Option α)) (items : List α) : Code (Option (List α)) := do
  return (← step items).map (· :: items)

/-- The items that `step` gives until it tells that the list is complete. -/
def many (step : List α → Code (Option α)) : Code (List α) := do
  let items ← loop (itemTurn step) []
  return items.reverse

/-- The items up to a closing byte, which is left in place. -/
def itemsUntil (closing : UInt8) (item : List α → Code α) : Code (List α) :=
  many fun items => do
    skipBlanks
    match ← peek with
    | none => fail (.unclosed closing)
    | some b => if b = closing then return none else some <$> item items

/-- One item or more in parentheses. -/
def parenthesised (item : List α → Code α) : Code (List α) := do
  expect (ascii '(')
  let items ← many fun items => do
    skipBlanks
    if (← peek) = some (ascii ')') && !items.isEmpty then return none else some <$> item items
  expect (ascii ')')
  return items

/-! ## §2 Routines -/

/-- An entry, whose name must differ from those of the earlier ones. -/
def entry (duplicate : Bytes → SyntaxProblem) (value : Code α) (earlier : List (Entry α)) :
    Code (Entry α) := do
  let location ← position
  let name ← name
  if earlier.any (·.name == name) then failAt (duplicate name) location
  else
    expect (ascii ':')
    let value ← value
    return ⟨name, value, location⟩

def string : Code Literal := do
  let start ← position
  advance
  let characters ← many fun _ => character start
  return .string start characters.flatten

def list (references : References) (location : Location) : Code Literal := level do
  expect (ascii '[')
  let items ← itemsUntil (ascii ']') fun _ => call (.value references)
  expect (ascii ']')
  return .list location items

def object (references : References) (location : Location) : Code Literal := level do
  expect (ascii '\x7b')
  let fields ← itemsUntil (ascii '\x7d') (entry .duplicateInputField (call (.value references)))
  expect (ascii '\x7d')
  return .object location fields

/-- The routine for a value of each shape is told from its first byte. -/
def value (references : References) : Code Literal := do
  skipBlanks
  let location ← position
  match ← peek with
  | none => fail (.expectedValue none)
  | some b =>
    if b = ascii '$' then reference references location
    else if b = ascii '"' then call .string
    else if b = ascii '-' || isDigit b then call .number
    else if b = ascii '[' then call (.list references location)
    else if b = ascii '\x7b' then call (.object references location)
    else if isNameStart b then read (wordOf location <$> name)
    else fail (.expectedValue (some b))

def type : Code (TypeExpr Bytes) := level do
  if ← accept (ascii '[') then
    let element ← call .type
    expect (ascii ']')
    nonNullMark (.list element)
  else
    let name ← name
    nonNullMark (.named name)

/-- A list in parentheses where there is one, and the blanks after it. -/
def optionalList (list : Code (List α)) : Code (List α) := do
  if (← peek) = some (ascii '(') then
    let items ← list
    skipBlanks
    return items
  else return []

def field : Code Field := do
  let location ← position
  let (aliasName, name) ← aliasAndName
  let arguments ← optionalList (call .arguments)
  noDirective
  if (← peek) = some (ascii '\x7b') then
    let selections ← call .selectionSet
    return ⟨aliasName, name, arguments, selections, location⟩
  else return ⟨aliasName, name, arguments, [], location⟩

/-- A field where a fragment might stand, which is refused. -/
def selection : Code Field := do
  if (← peek) = some (ascii '.') then fail .fragment else call .field

def selectionSet : Code (List Field) := level do
  expect (ascii '\x7b')
  let fields ← itemsUntil (ascii '\x7d') fun _ => selection
  if fields.isEmpty then fail .emptySelections
  else
    expect (ascii '\x7d')
    return fields

/-- A default value if an equals sign follows. -/
def defaultValue : Code (Option Literal) := do
  if ← accept (ascii '=') then some <$> call (.value .refused) else return none

/-- A variable definition, whose name must differ from the earlier ones. -/
def variableDefinition (earlier : List VariableDefinition) : Code VariableDefinition := do
  let location ← position
  expect (ascii '$')
  let name ← name
  if earlier.any (·.name == name) then failAt (.duplicateVariable name) location
  else
    expect (ascii ':')
    let type ← call .type
    let default ← defaultValue
    return ⟨name, type, default, location⟩

/-- The selections of an operation that began with a keyword. -/
def operationSelections : Code (List Field) := do
  noDirective
  let next ← peek
  if next = some (ascii '\x7b') then call .selectionSet else fail (.expectedSelections next)

def operation : Code Operation := do
  let location ← position
  if (← peek) = some (ascii '\x7b') then
    let selections ← call .selectionSet
    return ⟨.query, none, [], selections, location⟩
  else
    let keyword ← name
    let kind ← operationKind location keyword
    let name ← operationName
    let definitions ← optionalList (call .variableDefinitions)
    let selections ← operationSelections
    return ⟨kind, name, definitions, selections, location⟩

/-- The next operation, if any text is left; its name must be new. -/
def nextOperation (earlier : List Operation) : Code (Option Operation) := do
  skipBlanks
  match ← peek with
  | none => return none
  | some _ =>
    let operation ← call .operation
    if operation.name.isSome && earlier.any (·.name == operation.name) then
      failAt (.duplicateOperation (operation.name.getD [])) operation.location
    else return some operation

/-- The parser itself, which calls routines and is called by none. -/
def document : Code Document := do
  skipBlanks
  if (← peek).isNone then fail .expectedOperation
  else
    let operations ← many nextOperation
    match operations.find? (·.name.isNone) with
    | some anonymous =>
      if 1 < operations.length then failAt .anonymousNotAlone anonymous.location
      else return ⟨operations⟩
    | none => return ⟨operations⟩

end Code

namespace Routine

/-- The code of a routine. -/
def code : {α : Type} → Routine α → Code α
  | _, .operation => .operation
  | _, .variableDefinitions => .parenthesised .variableDefinition
  | _, .type => .type
  | _, .selectionSet => .selectionSet
  | _, .field => .field
  | _, .arguments => .parenthesised (.entry .duplicateArgument (.call (.value .allowed)))
  | _, .value references => .value references
  | _, .string => .string
  | _, .number => .read Reading.number
  | _, .list references location => .list references location
  | _, .object references location => .object references location

/-- The reading that does the same with so many levels to open. An operation may open
all of them. -/
def reading : {α : Type} → Routine α → (budget : Nat) → Reading α
  | _, .operation, _ => Reading.operation
  | _, .variableDefinitions, _ => Reading.parenthesised Reading.variableDefinition
  | _, .type, budget => writtenType budget
  | _, .selectionSet, budget => selections budget
  | _, .field, budget => Reading.field (literal .allowed budget) (selections budget)
  | _, .arguments, budget =>
    Reading.parenthesised (Reading.entry .duplicateArgument (literal .allowed budget))
  | _, .value references, budget => literal references budget
  | _, .string, _ => Reading.string
  | _, .number, _ => Reading.number
  | _, .list _ _, 0 => fail .nestsTooDeeply
  | _, .list references location, budget + 1 => listLiteral location (literal references budget)
  | _, .object _ _, 0 => fail .nestsTooDeeply
  | _, .object references location, budget + 1 => objectLiteral location (literal references budget)

end Routine

/-! ## §3 Scans -/

/-- The loops over single bytes, which the routines use as readings. -/
inductive Scan : Type → Type where
  | blanks : Scan Unit
  | run (member : UInt8 → Bool) : Scan Bytes
  | hexDigits (count : Nat) : Scan Nat
  | continuation (count : Nat) : Scan Bytes

namespace Scan

/-- Takes the next byte as long as it gives a state for the turn after it. -/
def turn {σ : Type} (next? : σ → UInt8 → Option σ) (state : σ) : Code (Option σ) := do
  match (← peek).bind (next? state) with
  | none => return none
  | some next =>
    advance
    return some next

/-- Blanks and comments; the state tells that a comment is open. -/
def blank? (inComment : Bool) (b : UInt8) : Option Bool :=
  if inComment then some !isLineEnd b
  else if isBlank b then some false
  else if b == ascii '#' then some true
  else none

/-- The bytes of a class; the state holds those so far, latest first. -/
def member? (member : UInt8 → Bool) (taken : Bytes) (b : UInt8) : Option Bytes :=
  if member b then some (b :: taken) else none

/-- Hexadecimal digits; the state holds how many are left and the number of those before. -/
def hexDigit? : Nat × Nat → UInt8 → Option (Nat × Nat)
  | (0, _), _ => none
  | (left + 1, value), b => (Escape.hexValue? b).map fun digit => (left, value * 16 + digit)

/-- Continuation bytes; the state holds how many are left and those before, latest first. -/
def continuation? : Nat × Bytes → UInt8 → Option (Nat × Bytes)
  | (0, _), _ => none
  | (left + 1, taken), b => if Utf8.isContinuation b then some (left, b :: taken) else none

/-- The code of a scan. -/
def code : {α : Type} → Scan α → Code α
  | _, .blanks => do
    let _ ← Code.loop (turn blank?) false
    return ()
  | _, .run member => do
    let taken ← Code.loop (turn (member? member)) []
    return taken.reverse
  | _, .hexDigits count => do
    let last ← Code.loop (turn hexDigit?) (count, 0)
    if last.1 = 0 then return last.2 else fail .invalidUnicodeEscape
  | _, .continuation count => do
    let last ← Code.loop (turn continuation?) (count, [])
    if last.1 = 0 then return last.2.reverse else fail .invalidUtf8

/-- The reading that does the same. -/
def reading : {α : Type} → Scan α → Reading α
  | _, .blanks => skipBlanks
  | _, .run member => takeRun member
  | _, .hexDigits count => Reading.hexDigits count 0
  | _, .continuation count => Reading.continuation count

end Scan

/-! ## §4 Machines -/

/-- A machine that runs code: its cursor, how many levels are open, and how many calls have
not returned. -/
structure Machine where
  cursor : Cursor
  levels : Nat
  calls : Nat

namespace Machine

/-- The machine before it has read anything of a text. -/
def start (text : Bytes) : Machine := ⟨⟨text, Location.start⟩, 0, 0⟩

def openLevel (machine : Machine) : Machine := { machine with levels := machine.levels + 1 }

def closeLevel (machine : Machine) : Machine := { machine with levels := machine.levels - 1 }

def openCall (machine : Machine) : Machine := { machine with calls := machine.calls + 1 }

def closeCall (machine : Machine) : Machine := { machine with calls := machine.calls - 1 }

end Machine

/-- Run on a machine, code ends with an outcome and leaves another machine. Code that does
not end has no outcome. A failure leaves the loops, levels and calls that it is inside of. -/
inductive Code.Ends : {α : Type} → Code α → Machine → Except SyntaxError α → Machine → Prop
  | read {α : Type} {reading : Reading α} {machine : Machine} {a : α} {cursor : Cursor} :
    reading.run machine.cursor = .ok (a, cursor) →
    Ends (.read reading) machine (.ok a) { machine with cursor }
  | readFails {α : Type} {reading : Reading α} {machine : Machine} {error : SyntaxError} :
    reading.run machine.cursor = .error error → Ends (.read reading) machine (.error error) machine
  | andThen {α β : Type} {first : Code α} {rest : α → Code β} {machine middle after : Machine}
    {a : α} {outcome : Except SyntaxError β} :
    Ends first machine (.ok a) middle → Ends (rest a) middle outcome after →
    Ends (.andThen first rest) machine outcome after
  | firstFails {α β : Type} {first : Code α} {rest : α → Code β} {machine after : Machine}
    {error : SyntaxError} :
    Ends first machine (.error error) after →
    Ends (.andThen first rest) machine (.error error) after
  | turn {σ : Type} {turn : σ → Code (Option σ)} {state next : σ} {machine middle after : Machine}
    {outcome : Except SyntaxError σ} :
    Ends (turn state) machine (.ok (some next)) middle →
    Ends (.loop turn next) middle outcome after → Ends (.loop turn state) machine outcome after
  | lastTurn {σ : Type} {turn : σ → Code (Option σ)} {state : σ} {machine after : Machine} :
    Ends (turn state) machine (.ok none) after → Ends (.loop turn state) machine (.ok state) after
  | turnFails {σ : Type} {turn : σ → Code (Option σ)} {state : σ} {machine after : Machine}
    {error : SyntaxError} :
    Ends (turn state) machine (.error error) after →
    Ends (.loop turn state) machine (.error error) after
  | level {α : Type} {body : Code α} {machine after : Machine} {outcome : Except SyntaxError α} :
    machine.levels < nestingLimit → Ends body machine.openLevel outcome after →
    Ends (.level body) machine outcome after.closeLevel
  | levelFails {α : Type} {body : Code α} {machine : Machine} :
    ¬ machine.levels < nestingLimit →
    Ends (.level body) machine (.error ⟨.nestsTooDeeply, machine.cursor.location⟩) machine
  | call {α : Type} {routine : Routine α} {machine after : Machine}
    {outcome : Except SyntaxError α} :
    Ends routine.code machine.openCall outcome after →
    Ends (.call routine) machine outcome after.closeCall

/-- Code comes to one end at most. -/
theorem Code.Ends.unique {α : Type} {code : Code α} {machine after otherAfter : Machine}
    {outcome other : Except SyntaxError α} (h : code.Ends machine outcome after)
    (hother : code.Ends machine other otherAfter) : outcome = other ∧ after = otherAfter := by
  -- Two ends agree on the first part of the code, which tells how both go on.
  induction h generalizing otherAfter with
  | read hrun =>
    cases hother with
    | read hagain =>
      cases hrun.symm.trans hagain
      exact ⟨rfl, rfl⟩
    | readFails hfails => cases hrun.symm.trans hfails
  | readFails hfails =>
    cases hother with
    | read hrun => cases hfails.symm.trans hrun
    | readFails hagain =>
      cases hfails.symm.trans hagain
      exact ⟨rfl, rfl⟩
  | andThen _ _ ihFirst ihRest =>
    cases hother with
    | andThen hfirst hrest =>
      obtain ⟨heq, rfl⟩ := ihFirst hfirst
      cases heq
      exact ihRest hrest
    | firstFails hfirst => cases (ihFirst hfirst).1
  | firstFails _ ihFirst =>
    cases hother with
    | andThen hfirst _ => cases (ihFirst hfirst).1
    | firstFails hfirst =>
      obtain ⟨heq, rfl⟩ := ihFirst hfirst
      cases heq
      exact ⟨rfl, rfl⟩
  | turn _ _ ihTurn ihRest =>
    cases hother with
    | turn hturn hrest =>
      obtain ⟨heq, rfl⟩ := ihTurn hturn
      cases heq
      exact ihRest hrest
    | lastTurn hturn => cases (ihTurn hturn).1
    | turnFails hturn => cases (ihTurn hturn).1
  | lastTurn _ ihTurn =>
    cases hother with
    | turn hturn _ => cases (ihTurn hturn).1
    | lastTurn hturn => exact ⟨rfl, (ihTurn hturn).2⟩
    | turnFails hturn => cases (ihTurn hturn).1
  | turnFails _ ihTurn =>
    cases hother with
    | turn hturn _ => cases (ihTurn hturn).1
    | lastTurn hturn => cases (ihTurn hturn).1
    | turnFails hturn =>
      obtain ⟨heq, rfl⟩ := ihTurn hturn
      cases heq
      exact ⟨rfl, rfl⟩
  | level hlevels _ ihBody =>
    cases hother with
    | level _ hbody =>
      obtain ⟨rfl, rfl⟩ := ihBody hbody
      exact ⟨rfl, rfl⟩
    | levelFails hfull => exact absurd hlevels hfull
  | levelFails hfull =>
    cases hother with
    | level hlevels _ => exact absurd hlevels hfull
    | levelFails _ => exact ⟨rfl, rfl⟩
  | call _ ihCode =>
    cases hother with
    | call hcode =>
      obtain ⟨rfl, rfl⟩ := ihCode hcode
      exact ⟨rfl, rfl⟩

/-- Nothing makes a loop end: it has no end where none of its turns is the last one. -/
theorem Code.not_ends_loop {σ : Type} {turn : σ → Code (Option σ)}
    (hturn : ∀ state machine, ∃ next after, (turn state).Ends machine (.ok (some next)) after)
    (state : σ) (machine : Machine) (outcome : Except SyntaxError σ) (after : Machine) :
    ¬ (Code.loop turn state).Ends machine outcome after := by
  intro h
  generalize hcode : Code.loop turn state = code at h
  induction h with
  | turn _ _ _ ihRest =>
    cases hcode
    exact ihRest hturn _ rfl
  | @lastTurn _ _ last machine _ hlast =>
    cases hcode
    obtain ⟨next, middle, hnext⟩ := hturn last machine
    cases (hlast.unique hnext).1
  | @turnFails _ _ last machine _ _ hfails =>
    cases hcode
    obtain ⟨next, middle, hnext⟩ := hturn last machine
    cases (hfails.unique hnext).1
  | _ => cases hcode

/-! ## §5 Moments -/

/-- Code that is about to run on a machine. -/
structure Moment where
  {result : Type}
  code : Code result
  machine : Machine

/-- The next moments inside a moment: where a part of its code is about to run. -/
inductive Moment.Step : Moment → Moment → Prop
  | first {α β : Type} {first : Code α} {rest : α → Code β} {machine : Machine} :
    Step ⟨.andThen first rest, machine⟩ ⟨first, machine⟩
  | rest {α β : Type} {first : Code α} {rest : α → Code β} {machine after : Machine} {a : α} :
    first.Ends machine (.ok a) after → Step ⟨.andThen first rest, machine⟩ ⟨rest a, after⟩
  | turn {σ : Type} {turn : σ → Code (Option σ)} {state : σ} {machine : Machine} :
    Step ⟨.loop turn state, machine⟩ ⟨turn state, machine⟩
  | again {σ : Type} {turn : σ → Code (Option σ)} {state next : σ} {machine after : Machine} :
    (turn state).Ends machine (.ok (some next)) after →
    Step ⟨.loop turn state, machine⟩ ⟨.loop turn next, after⟩
  | inside {α : Type} {body : Code α} {machine : Machine} :
    machine.levels < nestingLimit → Step ⟨.level body, machine⟩ ⟨body, machine.openLevel⟩
  | called {α : Type} {routine : Routine α} {machine : Machine} :
    Step ⟨.call routine, machine⟩ ⟨routine.code, machine.openCall⟩

/-- A run that begins at the first moment comes to the second one. -/
def Moment.Reaches : Moment → Moment → Prop := Relation.ReflTransGen Step

end GraphQL.Reading
