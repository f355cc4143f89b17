/-
GraphQL.Proofs.Reading.BalancedDocument — the parser ends on every text, and its calls are
bounded by the nesting limit alone.

  §1 Literals   — by induction on the levels that can still be opened.
  §2 Selections — types and fields, by the same induction.
  §3 Operations — where all levels can still be opened.
  §4 Documents  — the parser on every text.

Each routine tracks the reading of its name. The height of a routine counts the calls that
can be open below it: two for each level that can still be opened, and a few more. The
length of the text does not come into it.
-/
import GraphQL.Proofs.Reading.Balance

namespace GraphQL.Reading

variable {α : Type} {room height : Nat}

/-! ## §1 Literals -/

theorem tracks_entry {value : Code α} {r : Reading α} (duplicate : Bytes → SyntaxProblem)
    (hvalue : Tracks room height value r) (earlier : List (Entry α)) :
    Tracks room height (Code.entry duplicate value earlier) (entry duplicate r earlier) :=
  (Tracks.read position).bind fun _ => (Tracks.read name).bind fun _ =>
    .ite (.read _) ((Tracks.read _).bind fun _ => hvalue.bind fun _ => .read (pure _))

theorem takesText_character (start : Location) :
    TakesText fun _ : List Bytes => character start :=
  takesText_of_progresses (progresses_character start) fun _ _ =>
    Keeps.character ⟨⟨[], start⟩, List.nil_suffix, rfl⟩

theorem tracks_string : Tracks room height Code.string string :=
  (Tracks.read position).bind fun start => (Tracks.read advance).bind fun _ =>
    (tracks_many (fun _ => .read (character start)) (takesText_character start)).bind fun _ =>
      .read (pure _)

theorem tracks_list {references : References} (location : Location)
    (hvalue : Tracks room height (.call (.value references)) (literal references room)) :
    Tracks (room + 1) height (Code.list references location)
      (listLiteral location (literal references room)) := by
  have hitems := tracks_itemsUntil (ascii ']') (fun _ => hvalue)
    fun _ => (Routine.value references).advances room
  exact .level ((Tracks.read _).bind fun _ => hitems.bind fun _ => (Tracks.read _).bind fun _ =>
    .read (pure _))

theorem tracks_object {references : References} (location : Location)
    (hvalue : Tracks room height (.call (.value references)) (literal references room)) :
    Tracks (room + 1) height (Code.object references location)
      (objectLiteral location (literal references room)) := by
  have hfields := tracks_itemsUntil (ascii '\x7d') (tracks_entry .duplicateInputField hvalue)
    (advances_entry (fun _ => rfl) references room)
  exact .level ((Tracks.read _).bind fun _ => hfields.bind fun _ => (Tracks.read _).bind fun _ =>
    .read (pure _))

/-- A value of any shape, given the calls for lists and objects. -/
theorem tracks_valueWith {references : References} {inner : Option (Reading Literal)}
    (hlist : ∀ location, Tracks room (height + 1) (.call (.list references location))
      (nested inner (listLiteral location)))
    (hobject : ∀ location, Tracks room (height + 1) (.call (.object references location))
      (nested inner (objectLiteral location))) :
    Tracks room (height + 1) (Code.value references) (literalWith references inner) := by
  refine (Tracks.read skipBlanks).bind fun _ => (Tracks.read position).bind fun location =>
    (Tracks.read peek).bind fun found => ?_
  cases found with
  | none => exact .read _
  | some b =>
    exact .ite (.read _) (.ite (Tracks.call .string tracks_string)
      (.ite (Tracks.call .number (.read number)) (.ite (hlist location)
        (.ite (hobject location) (.ite (.read _) (.read _))))))

theorem tracks_value (references : References) (room : Nat) :
    Tracks room (2 * room + 1) (Code.value references) (literal references room) := by
  induction room with
  | zero =>
    exact tracks_valueWith
      (fun location => Tracks.call (.list references location) (.level_full _))
      (fun location => Tracks.call (.object references location) (.level_full _))
  | succ room ih =>
    have hvalue := Tracks.call (.value references) ih
    exact tracks_valueWith
      (fun location => Tracks.call (.list references location)
        (tracks_list location hvalue))
      (fun location => Tracks.call (.object references location)
        (tracks_object location hvalue))

theorem tracks_callValue (references : References) (room : Nat) :
    Tracks room (2 * room + 2) (.call (.value references)) (literal references room) :=
  Tracks.call (.value references) (tracks_value references room)

/-! ## §2 Selections -/

theorem tracks_type (room : Nat) : Tracks room room Code.type (writtenType room) := by
  induction room with
  | zero => exact .level_full _
  | succ room ih =>
    have hcall := Tracks.call .type ih
    exact .level ((Tracks.read _).bind fun _ => .ite
      (hcall.bind fun _ => (Tracks.read _).bind fun _ => .read (nonNullMark _))
      ((Tracks.read name).bind fun _ => .read (nonNullMark _)))

theorem tracks_optionalList {list : Code (List α)} {r : Reading (List α)}
    (hlist : Tracks room height list r) : Tracks room height (Code.optionalList list) (do
      if (← peek) = some (ascii '(') then
        let items ← r
        skipBlanks
        return items
      else return []) :=
  (Tracks.read peek).bind fun _ => .ite
    (hlist.bind fun _ => (Tracks.read skipBlanks).bind fun _ => .read (pure _)) (.read (pure []))

theorem tracks_arguments (room : Nat) : Tracks room (2 * room + 3) (.call .arguments)
    (parenthesised (entry .duplicateArgument (literal .allowed room))) :=
  Tracks.call .arguments (tracks_parenthesised
    (tracks_entry .duplicateArgument (tracks_callValue .allowed room))
    (advances_entry (fun _ => rfl) .allowed room))

theorem tracks_field
    (hselections : Tracks room (2 * room + 3) (.call .selectionSet) (selections room)) :
    Tracks room (2 * room + 3) Code.field (field (literal .allowed room) (selections room)) :=
  (Tracks.read position).bind fun _ => (Tracks.read aliasAndName).bind fun _ =>
    (tracks_optionalList (tracks_arguments room)).bind fun _ => (Tracks.read noDirective).bind
      fun _ => (Tracks.read peek).bind fun _ => .ite (hselections.bind fun _ => .read (pure _))
        (.read (pure _))

theorem tracks_selectionSet (room : Nat) :
    Tracks room (2 * room + 2) Code.selectionSet (selections room) := by
  induction room with
  | zero => exact .level_full _
  | succ room ih =>
    have hselections := Tracks.call .selectionSet ih
    have hfield := Tracks.call .field (tracks_field hselections)
    have hselection : Tracks room (2 * room + 4) Code.selection
        (selection (field (literal .allowed room) (selections room))) :=
      (Tracks.read peek).bind fun _ => .ite (.read _) hfield
    have hfields := tracks_itemsUntil (ascii '\x7d') (fun _ => hselection)
      fun _ => advances_selection (advances_field room)
    exact .level ((Tracks.read _).bind fun _ => hfields.bind fun _ => .ite (.read _)
      ((Tracks.read _).bind fun _ => .read (pure _)))

/-! ## §3 Operations -/

theorem tracks_defaultValue :
    Tracks nestingLimit (2 * nestingLimit + 2) Code.defaultValue defaultValue :=
  (Tracks.read _).bind fun _ => .ite (tracks_callValue .refused nestingLimit).map
    (.read (pure none))

theorem tracks_variableDefinition (earlier : List VariableDefinition) :
    Tracks nestingLimit (2 * nestingLimit + 2) (Code.variableDefinition earlier)
      (variableDefinition earlier) := by
  have htype : Tracks nestingLimit (2 * nestingLimit + 2) (.call .type)
      (writtenType nestingLimit) :=
    (Tracks.call .type (tracks_type nestingLimit)).mono (by omega)
  refine (Tracks.read position).bind fun _ => (Tracks.read (expect (ascii '$'))).bind fun _ =>
    (Tracks.read name).bind fun _ => .ite (.read _) ?new
  case new =>
    exact (Tracks.read (expect (ascii ':'))).bind fun _ => htype.bind fun _ =>
      tracks_defaultValue.bind fun _ => .read (pure _)

theorem tracks_operation :
    Tracks nestingLimit (2 * nestingLimit + 3) Code.operation operation := by
  have hselections := Tracks.call .selectionSet (tracks_selectionSet nestingLimit)
  have hdefinitions : Tracks nestingLimit (2 * nestingLimit + 3) (.call .variableDefinitions)
      (parenthesised variableDefinition) :=
    Tracks.call .variableDefinitions
      (tracks_parenthesised tracks_variableDefinition advances_variableDefinition)
  have hoperationSelections : Tracks nestingLimit (2 * nestingLimit + 3) Code.operationSelections
      operationSelections :=
    (Tracks.read noDirective).bind fun _ => (Tracks.read peek).bind fun _ =>
      .ite hselections (.read _)
  refine (Tracks.read position).bind fun location => (Tracks.read peek).bind fun _ =>
    .ite ?short ?full
  case short => exact hselections.bind fun _ => .read (pure _)
  case full =>
    exact (Tracks.read name).bind fun keyword => (Tracks.read (operationKind location keyword)).bind
      fun _ => (Tracks.read operationName).bind fun _ => (tracks_optionalList hdefinitions).bind
        fun _ => hoperationSelections.bind fun _ => .read (pure _)

/-! ## §4 Documents -/

theorem tracks_nextOperation (earlier : List Operation) :
    Tracks nestingLimit (2 * nestingLimit + 4) (Code.nextOperation earlier)
      (nextOperation earlier) := by
  have hoperation : Tracks nestingLimit (2 * nestingLimit + 4) (.call .operation) operation :=
    Tracks.call .operation tracks_operation
  refine (Tracks.read skipBlanks).bind fun _ => (Tracks.read peek).bind fun found => ?_
  cases found with
  | none => exact .read (pure none)
  | some _ => exact hoperation.bind fun _ => .ite (.read _) (.read (pure _))

theorem takesText_nextOperation : TakesText nextOperation :=
  takesText_of_progresses progresses_nextOperation fun _ earlier =>
    (Keeps.nextOperation earlier).stays

theorem tracks_document :
    Tracks nestingLimit (2 * nestingLimit + 4) Code.document document := by
  have hoperations := tracks_many tracks_nextOperation takesText_nextOperation
  refine (Tracks.read skipBlanks).bind fun _ => (Tracks.read peek).bind fun _ =>
    .ite (.read _) (hoperations.bind fun operations => ?_)
  cases operations.find? (·.name.isNone) with
  | none => exact .read (pure _)
  | some _ => exact .ite (.read _) (.read (pure _))

end GraphQL.Reading

namespace GraphQL

open Reading

/-- The scans do what their readings do, from every cursor. On every text the parser comes to
an end, with what `ofText` gives and all levels closed. All that it comes to on its way is
sound: every call closes what it opens and takes text if it returns, every turn of a loop takes
text or is the last one, and the nesting limit alone bounds the levels and calls that are open,
however long the text is. -/
theorem Document.ofText_balanced :
    (∀ (α : Type) (scan : Scan α) (cursor : Cursor), scan.code.Does ⟨cursor, 0, 0⟩ scan.reading ∧
      ∀ moment, Moment.Reaches ⟨scan.code, ⟨cursor, 0, 0⟩⟩ moment → moment.Sound 0) ∧
    ∀ text : Bytes,
      (∃ cursor, Code.document.Ends (.start text) (Document.ofText text) ⟨cursor, 0, 0⟩) ∧
      ∀ moment, Moment.Reaches ⟨Code.document, .start text⟩ moment →
        moment.Sound (2 * nestingLimit + 4) := by
  refine ⟨fun α scan cursor => ?_, fun text => ?_⟩
  · have hscan : Tracks nestingLimit 0 scan.code scan.reading := tracks_scan scan
    exact hscan ⟨cursor, 0, 0⟩ (Nat.zero_add _)
  obtain ⟨hdoes, hsound⟩ := tracks_document (Machine.start text) (Nat.zero_add _)
  refine ⟨?_, fun moment hmoment => Nat.zero_add (2 * nestingLimit + 4) ▸ hsound moment hmoment⟩
  unfold Document.ofText
  cases hrun : Reading.document.run ⟨text, Location.start⟩ with
  | ok result => exact ⟨_, hdoes.of_ok hrun⟩
  | error error => exact hdoes.of_error hrun

/-- Two levels are open where the text ends, and closed where the parser does. The call of the
operation is one of the moments on the way. -/
theorem Document.ofText_balanced_unclosed :
    (∃ cursor, Code.document.Ends (.start (utf8 "\x7ba(b:[1"))
      (.error ⟨.unclosed (ascii ']'), ⟨1, 8⟩⟩) ⟨cursor, 0, 0⟩) ∧
    Moment.Reaches ⟨Code.document, .start (utf8 "\x7ba(b:[1")⟩
      ⟨.call .operation, .start (utf8 "\x7ba(b:[1")⟩ ∧
    Moment.Sound (2 * nestingLimit + 4) ⟨.call .operation, .start (utf8 "\x7ba(b:[1")⟩ := by
  have htext : Document.ofText (utf8 "\x7ba(b:[1") =
      .error ⟨.unclosed (ascii ']'), ⟨1, 8⟩⟩ := by decide +kernel
  -- Past the blanks and the test for an end, into the first turn, past its own blanks and test.
  have hreaches : Moment.Reaches ⟨Code.document, .start (utf8 "\x7ba(b:[1")⟩
      ⟨.call .operation, .start (utf8 "\x7ba(b:[1")⟩ :=
    .head (.rest (.read rfl)) <| .head (.rest (.read rfl)) <| .head .first <| .head .first <|
      .head .turn <| .head .first <| .head (.rest (.read rfl)) <| .head (.rest (.read rfl)) <|
      .single .first
  obtain ⟨hends, hsound⟩ := Document.ofText_balanced.2 (utf8 "\x7ba(b:[1")
  exact ⟨htext ▸ hends, hreaches, hsound _ hreaches⟩

end GraphQL
