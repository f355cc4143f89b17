/-
GraphQL.Proofs.Reading.Invariant — what every reading keeps, and what its failures
have in common.

  §1 Invariants  — properties of cursors that every byte keeps.
  §2 Keeping     — readings that keep an invariant, step by step.
  §3 Tokens      — punctuators, names and loops.
  §4 Numbers     — digits up to numerals that are out of range.
  §5 Strings     — characters and their escapes.
  §6 Literals    — by induction on the nesting budget.
  §7 Operations  — fields, variables and operations.
  §8 Documents   — operations up to the end of the text.

A cursor moves byte by byte, so a property of cursors that one byte keeps is kept by
every reading. A failure names what was read, which is plain, and stands where some
cursor with the property stood. That may be an earlier one, so `Keeps` says something
of results too.
-/
import GraphQL.Proofs.Reading.SoundDocument
import GraphQL.Proofs.Text.WellFormed

namespace GraphQL

/-! ## §1 Invariants -/

/-- What a message quotes besides the byte it stopped at: names, numerals and bytes that
were expected. -/
def SyntaxProblem.named : SyntaxProblem → Bytes
  | .unknownOperation text | .duplicateOperation text | .duplicateVariable text
  | .duplicateArgument text | .duplicateInputField text | .variableInDefault text
  | .integerOutOfRange text | .floatOutOfRange text => text
  | .expectedByte byte _ | .unclosed byte => [byte]
  | _ => []

namespace Reading

/-- A property of cursors that the cursor one byte further on has as well. -/
structure Invariant where
  holds : Cursor → Prop
  after : ∀ {b rest location}, holds ⟨b :: rest, location⟩ → holds ⟨rest, location.after b rest⟩

namespace Invariant

/-- The position of a cursor with the property. -/
def Reached (I : Invariant) (location : Location) : Prop :=
  ∃ c : Cursor, I.holds c ∧ c.location = location

variable {I : Invariant} {rest : Bytes} {location : Location}

theorem next {c : Cursor} (h : I.holds c) : I.holds c.next := by
  obtain ⟨rest, location⟩ := c
  cases rest with
  | nil => exact h
  | cons b rest => exact I.after h

theorem skipFrom (inComment : Bool) (h : I.holds ⟨rest, location⟩) :
    I.holds (skipFrom inComment rest location) := by
  induction rest generalizing inComment location with
  | nil => exact h
  | cons b rest ih =>
    rw [Reading.skipFrom]
    split_ifs
    · exact ih _ (I.after h)
    · exact ih _ (I.after h)
    · exact ih _ (I.after h)
    · exact h

theorem runFrom (member : UInt8 → Bool) (taken : Bytes) (h : I.holds ⟨rest, location⟩) :
    I.holds (runFrom member taken rest location).2 := by
  induction rest generalizing taken location with
  | nil => exact h
  | cons b rest ih =>
    rw [Reading.runFrom]
    split_ifs
    · exact ih _ (I.after h)
    · exact h

end Invariant

/-! ## §2 Keeping -/

variable {α β : Type} {I : Invariant}

/-- From a cursor with the property the reading gives a result that satisfies `P`, and
leaves such a cursor. Or it fails: what the problem names is plain, and it is noticed
where such a cursor stood. -/
def Keeps (I : Invariant) (r : Reading α) (P : α → Prop) : Prop :=
  ∀ ⦃c⦄, I.holds c → match r.run c with
    | .ok (a, c') => P a ∧ I.holds c'
    | .error error => IsPlain error.problem.named ∧ I.Reached error.location

/-- `Keeps` for a reading of whose result nothing is said. -/
abbrev Stays (I : Invariant) (r : Reading α) : Prop := Keeps I r fun _ => True

namespace Keeps

variable {r : Reading α} {P : α → Prop} {Q : β → Prop}

theorem of_ok (hr : Keeps I r P) {c c' : Cursor} {a : α} (hc : I.holds c)
    (hrun : r.run c = .ok (a, c')) : P a ∧ I.holds c' := by
  have h := hr hc
  rwa [hrun] at h

theorem of_error (hr : Keeps I r P) {c : Cursor} {error : SyntaxError} (hc : I.holds c)
    (hrun : r.run c = .error error) :
    IsPlain error.problem.named ∧ I.Reached error.location := by
  have h := hr hc
  rwa [hrun] at h

theorem of_total (h : ∀ c, I.holds c → ∃ a c', r.run c = .ok (a, c') ∧ P a ∧ I.holds c') :
    Keeps I r P := by
  intro c hc
  obtain ⟨a, c', hrun, ha⟩ := h c hc
  rw [hrun]
  exact ha

/-- What is known of the results of a reading may be added. -/
theorem imp_of_ok {P' : α → Prop} (hr : Keeps I r P)
    (h : ∀ ⦃c a c'⦄, r.run c = .ok (a, c') → P a → P' a) : Keeps I r P' := by
  intro c hc
  cases hrun : r.run c with
  | ok result => exact ⟨h hrun (hr.of_ok hc hrun).1, (hr.of_ok hc hrun).2⟩
  | error error => exact hr.of_error hc hrun

theorem stays (hr : Keeps I r P) : Stays I r := hr.imp_of_ok fun _ _ _ _ _ => trivial

theorem pure {a : α} (ha : P a) : Keeps I (Pure.pure a) P :=
  of_total fun c hc => ⟨a, c, rfl, ha, hc⟩

theorem bind {f : α → Reading β} (hr : Keeps I r P) (hf : ∀ a, P a → Keeps I (f a) Q) :
    Keeps I (r >>= f) Q := by
  intro c hc
  rw [bind_run]
  cases hrun : r.run c with
  | ok result =>
    obtain ⟨ha, hmiddle⟩ := hr.of_ok hc hrun
    exact hf result.1 ha hmiddle
  | error error => exact hr.of_error hc hrun

theorem map {f : α → β} (hr : Keeps I r P) (hf : ∀ a, P a → Q (f a)) : Keeps I (f <$> r) Q := by
  rw [map_eq_pure_bind]
  exact hr.bind fun a ha => pure (hf a ha)

theorem get : Stays I (get : Reading Cursor) := of_total fun c hc => ⟨c, c, rfl, trivial, hc⟩

theorem position : Keeps I position I.Reached :=
  of_total fun c hc => ⟨_, c, rfl, ⟨c, hc, rfl⟩, hc⟩

theorem peek : Stays I peek := of_total fun c hc => ⟨_, c, rfl, trivial, hc⟩

theorem advance : Stays I advance := of_total fun _ hc => ⟨_, _, rfl, trivial, Invariant.next hc⟩

theorem skipBlanks : Stays I skipBlanks :=
  of_total fun _ hc => ⟨_, _, rfl, trivial, Invariant.skipFrom false hc⟩

theorem takeRun (member : UInt8 → Bool) : Stays I (takeRun member) :=
  of_total fun _ hc => ⟨_, _, rfl, trivial, Invariant.runFrom member [] hc⟩

theorem failAt {problem : SyntaxProblem} {location : Location} (hproblem : IsPlain problem.named)
    (hlocation : I.Reached location) : Keeps I (failAt problem location) P :=
  fun _ _ => ⟨hproblem, hlocation⟩

theorem fail {problem : SyntaxProblem} (h : IsPlain problem.named) : Keeps I (fail problem) P :=
  position.bind fun _ hlocation => failAt h hlocation

/-! ## §3 Tokens -/

theorem expect {b : UInt8} (hb : IsPlain [b]) : Stays I (expect b) :=
  skipBlanks.bind fun _ _ => peek.bind fun _ _ => by
    split
    · exact advance
    · exact fail hb

theorem accept (b : UInt8) : Stays I (accept b) :=
  skipBlanks.bind fun _ _ => peek.bind fun _ _ => by
    split
    · exact advance.bind fun _ _ => pure trivial
    · exact pure trivial

theorem name : Keeps I name (isName · = true) := by
  have hname : Stays I Reading.name := skipBlanks.bind fun _ _ => peek.bind fun _ _ => by
    split
    · exact takeRun _
    · exact fail .nil
  exact hname.imp_of_ok fun _ _ _ hrun _ => (read_of_name hrun).2

/-- What is kept by each step of a loop is kept by the loop. -/
theorem many {step : List α → Reading (Option α)}
    (hstep : ∀ items, Keeps I (step items) fun found => ∀ a ∈ found, P a) :
    Keeps I (many step) fun items => ∀ a ∈ items, P a := by
  have hfrom : ∀ (bound : Bytes) (items : List α), (∀ a ∈ items, P a) →
      Keeps I (manyFrom step bound items) fun items => ∀ a ∈ items, P a := by
    intro bound
    induction bound with
    | nil => exact fun items hitems => pure (by simpa using hitems)
    | cons _ bound ih =>
      intro items hitems
      refine (hstep items).bind fun found hfound => ?_
      cases found with
      | none => exact pure (by simpa using hitems)
      | some a => exact ih _ (List.forall_mem_cons.mpr ⟨hfound a rfl, hitems⟩)
  exact get.bind fun _ _ => hfrom _ _ (by simp)

theorem stays_many {step : List α → Reading (Option α)} (hstep : ∀ items, Stays I (step items)) :
    Stays I (Reading.many step) :=
  (many (P := fun _ => True) fun items =>
    (hstep items).imp_of_ok fun _ _ _ _ _ _ _ => trivial).stays

theorem untilStep {closing : UInt8} (hclosing : IsPlain [closing]) {item : List α → Reading α}
    (hitem : ∀ items, Stays I (item items)) (items : List α) :
    Stays I (untilStep closing item items) :=
  skipBlanks.bind fun _ _ => peek.bind fun found _ => by
    cases found with
    | none => exact fail hclosing
    | some b =>
      dsimp only
      split
      · exact pure trivial
      · exact (hitem items).map fun _ _ => trivial

theorem itemsUntil {closing : UInt8} (hclosing : IsPlain [closing]) {item : List α → Reading α}
    (hitem : ∀ items, Stays I (item items)) : Stays I (itemsUntil closing item) :=
  stays_many (untilStep hclosing hitem)

theorem parenthesisedStep {item : List α → Reading α} (hitem : ∀ items, Stays I (item items))
    (items : List α) : Stays I (parenthesisedStep item items) :=
  skipBlanks.bind fun _ _ => peek.bind fun _ _ => by
    split
    · exact pure trivial
    · exact (hitem items).map fun _ _ => trivial

theorem parenthesised {item : List α → Reading α} (hitem : ∀ items, Stays I (item items)) :
    Stays I (parenthesised item) := by
  have hopen : IsPlain [ascii '('] := by simp [IsPlain]; decide
  have hclose : IsPlain [ascii ')'] := by simp [IsPlain]; decide
  exact (expect hopen).bind fun _ _ => (stays_many (parenthesisedStep hitem)).bind fun _ _ =>
    (expect hclose).bind fun _ _ => pure trivial

theorem nested {inner : Option α} {body : α → Reading β} (hbody : ∀ a ∈ inner, Stays I (body a)) :
    Stays I (nested inner body) := by
  cases inner with
  | none => exact fail .nil
  | some a => exact hbody a rfl

/-! ## §4 Numbers -/

theorem digits : Stays I digits :=
  (takeRun _).bind fun run _ => by
    split
    · exact peek.bind fun _ _ => fail .nil
    · exact pure trivial

theorem fraction : Stays I fraction :=
  peek.bind fun _ _ => by
    split
    · exact advance.bind fun _ _ => digits.map fun _ _ => trivial
    · exact pure trivial

theorem exponentSign : Stays I exponentSign :=
  peek.bind fun found _ => by
    cases found with
    | none => exact pure trivial
    | some b =>
      dsimp only
      split
      · exact advance.bind fun _ _ => pure trivial
      · exact pure trivial

theorem exponent : Stays I exponent :=
  peek.bind fun found _ => by
    cases found with
    | none => exact pure trivial
    | some b =>
      dsimp only
      split
      · exact advance.bind fun _ _ => exponentSign.bind fun _ _ => digits.bind fun _ _ =>
          pure trivial
      · exact pure trivial

theorem minus : Stays I minus :=
  peek.bind fun _ _ => by
    split
    · exact advance.bind fun _ _ => pure trivial
    · exact pure trivial

theorem numeral : Keeps I numeral Numeral.Written := by
  have hnumeral : Stays I Reading.numeral :=
    minus.bind fun _ _ => digits.bind fun _ _ => fraction.bind fun _ _ => exponent.bind fun _ _ =>
      peek.bind fun _ _ => by
        split
        · exact fail .nil
        · exact pure trivial
  refine hnumeral.imp_of_ok fun _ _ _ hrun _ => ?_
  obtain ⟨_, hwritten, _⟩ := split_of_numeral hrun
  exact hwritten

/-- A numeral that is written has digits, signs, a point and the letter of an exponent. -/
theorem isPlain_text {n : Numeral} (h : n.Written) : IsPlain n.text := by
  have hminus : IsPlain [ascii '-'] := by simp [IsPlain]; decide
  have hpoint : IsPlain [ascii '.'] := by simp [IsPlain]; decide
  rw [numeral_text]
  refine IsPlain.append ?_ ((isPlain_of_digits h.whole.2).append (IsPlain.append ?_ ?_))
  · split
    · exact hminus
    · exact .nil
  · cases hfraction : n.fraction with
    | none => exact .nil
    | some run => exact hpoint.append (isPlain_of_digits (h.fraction run hfraction).2)
  · cases hexponent : n.exponent with
    | none => exact .nil
    | some e =>
      have hwritten := h.exponent e hexponent
      have hletter : IsPlain [e.letter] := by
        rcases hwritten.letter with h | h <;> (rw [h]; simp [IsPlain]; decide)
      have hsign : IsPlain e.sign.toList := by
        cases hsign : e.sign with
        | none => exact .nil
        | some s => rcases hwritten.sign s hsign with rfl | rfl <;> (simp [IsPlain]; decide)
      exact (hletter.append hsign).append (isPlain_of_digits hwritten.digits.2)

theorem number : Stays I number := by
  refine position.bind fun location hlocation => numeral.bind fun n hn => ?_
  unfold numberOf
  split
  · split
    · exact pure trivial
    · exact failAt (isPlain_text hn) hlocation
  · split
    · exact pure trivial
    · exact failAt (isPlain_text hn) hlocation

/-! ## §5 Strings -/

theorem continuation (count : Nat) : Stays I (continuation count) := by
  induction count with
  | zero => exact pure trivial
  | succ count ih =>
    refine peek.bind fun found _ => ?_
    cases found with
    | none => exact fail .nil
    | some b =>
      dsimp only
      split
      · exact advance.bind fun _ _ => ih.bind fun _ _ => pure trivial
      · exact fail .nil

theorem sequence (first : UInt8) : Stays I (sequence first) := by
  unfold Reading.sequence
  split
  · exact fail .nil
  · refine (continuation _).bind fun _ _ => ?_
    split
    · exact pure trivial
    · exact fail .nil

theorem hexDigits (count value : Nat) : Stays I (hexDigits count value) := by
  induction count generalizing value with
  | zero => exact pure trivial
  | succ count ih =>
    refine peek.bind fun found _ => ?_
    split
    · exact fail .nil
    · exact advance.bind fun _ _ => ih _

theorem lowSurrogate : Stays I lowSurrogate := by
  refine get.bind fun _ _ => ?_
  split
  · refine advance.bind fun _ _ => advance.bind fun _ _ => (hexDigits 4 0).bind fun _ _ => ?_
    split
    · exact pure trivial
    · exact fail .nil
  · exact fail .nil

theorem unicodeEscape : Stays I unicodeEscape := by
  refine (hexDigits 4 0).bind fun _ _ => ?_
  split
  · exact fail .nil
  · split
    · exact lowSurrogate.bind fun _ _ => pure trivial
    · exact pure trivial

theorem escape : Stays I escape := by
  refine peek.bind fun _ _ => advance.bind fun _ _ => ?_
  split
  · exact unicodeEscape
  · split
    · exact pure trivial
    · exact fail .nil

theorem character {start : Location} (hstart : I.Reached start) : Stays I (character start) := by
  refine peek.bind fun found _ => ?_
  cases found with
  | none => exact failAt .nil hstart
  | some b =>
    dsimp only
    split
    · exact failAt .nil hstart
    · refine advance.bind fun _ _ => ?_
      split_ifs
      · exact pure trivial
      · exact (sequence b).map fun _ _ => trivial
      · exact escape.map fun _ _ => trivial
      · exact pure trivial

theorem string : Stays I string :=
  position.bind fun _ hstart => advance.bind fun _ _ =>
    (stays_many fun _ => character hstart).bind fun _ _ => pure trivial

/-! ## §6 Literals -/

theorem entry {duplicate : Bytes → SyntaxProblem}
    (hduplicate : ∀ text, (duplicate text).named = text) {value : Reading α}
    (hvalue : Stays I value) (earlier : List (Entry α)) :
    Stays I (entry duplicate value earlier) := by
  have hcolon : IsPlain [ascii ':'] := by simp [IsPlain]; decide
  refine position.bind fun location hlocation => name.bind fun text hname => ?_
  split
  · refine failAt ?_ hlocation
    rw [hduplicate]
    exact isPlain_of_isName hname
  · exact (expect hcolon).bind fun _ _ => hvalue.bind fun _ _ => pure trivial

theorem reference (references : References) {location : Location} (hlocation : I.Reached location) :
    Stays I (reference references location) := by
  refine advance.bind fun _ _ => name.bind fun _ hname => ?_
  cases references with
  | allowed => exact pure trivial
  | refused => exact failAt (isPlain_of_isName hname) hlocation

theorem listLiteral (location : Location) {item : Reading Literal} (hitem : Stays I item) :
    Stays I (listLiteral location item) := by
  have hopen : IsPlain [ascii '['] := by simp [IsPlain]; decide
  have hclose : IsPlain [ascii ']'] := by simp [IsPlain]; decide
  exact (expect hopen).bind fun _ _ => (itemsUntil hclose fun _ => hitem).bind fun _ _ =>
    (expect hclose).bind fun _ _ => pure trivial

theorem objectLiteral (location : Location) {value : Reading Literal} (hvalue : Stays I value) :
    Stays I (objectLiteral location value) := by
  have hopen : IsPlain [ascii '\x7b'] := by simp [IsPlain]; decide
  have hclose : IsPlain [ascii '\x7d'] := by simp [IsPlain]; decide
  exact (expect hopen).bind fun _ _ => (itemsUntil hclose (entry (fun _ => rfl) hvalue)).bind
    fun _ _ => (expect hclose).bind fun _ _ => pure trivial

theorem literalWith (references : References) {inner : Option (Reading Literal)}
    (hinner : ∀ r ∈ inner, Stays I r) : Stays I (literalWith references inner) := by
  refine skipBlanks.bind fun _ _ => position.bind fun location hlocation =>
    peek.bind fun found _ => ?_
  cases found with
  | none => exact fail .nil
  | some b =>
    dsimp only
    split_ifs
    · exact reference references hlocation
    · exact string
    · exact number
    · exact nested fun r hr => listLiteral location (hinner r hr)
    · exact nested fun r hr => objectLiteral location (hinner r hr)
    · exact name.map fun _ _ => trivial
    · exact fail .nil

theorem literal (references : References) (budget : Nat) : Stays I (literal references budget) := by
  induction budget with
  | zero => exact literalWith references (by simp)
  | succ budget ih => exact literalWith references (by simpa using ih)

/-! ## §7 Operations -/

theorem nonNullMark (type : TypeExpr Bytes) : Stays I (nonNullMark type) :=
  (accept _).bind fun _ _ => by
    split
    · exact pure trivial
    · exact pure trivial

theorem writtenType (budget : Nat) : Stays I (writtenType budget) := by
  have hclose : IsPlain [ascii ']'] := by simp [IsPlain]; decide
  induction budget with
  | zero => exact fail .nil
  | succ budget ih =>
    refine (accept _).bind fun _ _ => ?_
    split
    · exact ih.bind fun _ _ => (expect hclose).bind fun _ _ => nonNullMark _
    · exact name.bind fun _ _ => nonNullMark _

theorem noDirective : Stays I noDirective :=
  peek.bind fun _ _ => by
    split
    · exact fail .nil
    · exact pure trivial

theorem fieldArguments {value : Reading Literal} (hvalue : Stays I value) :
    Stays I (fieldArguments value) :=
  peek.bind fun _ _ => by
    split
    · exact (parenthesised (entry (fun _ => rfl) hvalue)).bind fun _ _ =>
        skipBlanks.bind fun _ _ => pure trivial
    · exact pure trivial

theorem aliasAndName : Stays I aliasAndName :=
  name.bind fun _ _ => skipBlanks.bind fun _ _ => peek.bind fun _ _ => by
    split
    · exact advance.bind fun _ _ => name.bind fun _ _ => skipBlanks.bind fun _ _ => pure trivial
    · exact pure trivial

theorem field {value : Reading Literal} (hvalue : Stays I value)
    {selections : Reading (List Field)} (hselections : Stays I selections) :
    Stays I (field value selections) :=
  position.bind fun _ _ => aliasAndName.bind fun _ _ => (fieldArguments hvalue).bind fun _ _ =>
    noDirective.bind fun _ _ => peek.bind fun _ _ => by
      split
      · exact hselections.bind fun _ _ => pure trivial
      · exact pure trivial

theorem selection {field : Reading Field} (hfield : Stays I field) :
    Stays I (selection field) :=
  peek.bind fun _ _ => by
    split
    · exact fail .nil
    · exact hfield

theorem selections (budget : Nat) : Stays I (selections budget) := by
  have hopen : IsPlain [ascii '\x7b'] := by simp [IsPlain]; decide
  have hclose : IsPlain [ascii '\x7d'] := by simp [IsPlain]; decide
  induction budget with
  | zero => exact fail .nil
  | succ budget ih =>
    have hfield := selection (field (literal .allowed budget) ih)
    refine (expect hopen).bind fun _ _ => (itemsUntil hclose fun _ => hfield).bind fun _ _ => ?_
    split
    · exact fail .nil
    · exact (expect hclose).bind fun _ _ => pure trivial

theorem defaultValue : Stays I defaultValue :=
  (accept _).bind fun _ _ => by
    split
    · exact (literal _ _).map fun _ _ => trivial
    · exact pure trivial

theorem variableDefinition (earlier : List VariableDefinition) :
    Stays I (variableDefinition earlier) := by
  have hdollar : IsPlain [ascii '$'] := by simp [IsPlain]; decide
  have hcolon : IsPlain [ascii ':'] := by simp [IsPlain]; decide
  refine position.bind fun location hlocation => (expect hdollar).bind fun _ _ =>
    name.bind fun _ hname => ?_
  split
  · exact failAt (isPlain_of_isName hname) hlocation
  · exact (expect hcolon).bind fun _ _ => (writtenType _).bind fun _ _ =>
      defaultValue.bind fun _ _ => pure trivial

theorem variableDefinitions : Stays I variableDefinitions :=
  peek.bind fun _ _ => by
    split
    · exact (parenthesised variableDefinition).bind fun _ _ => skipBlanks.bind fun _ _ =>
        pure trivial
    · exact pure trivial

theorem operationKind {location : Location} (hlocation : I.Reached location) {keyword : Bytes}
    (hkeyword : isName keyword = true) : Stays I (operationKind location keyword) := by
  unfold Reading.operationKind
  split_ifs
  · exact pure trivial
  · exact pure trivial
  · exact failAt .nil hlocation
  · exact failAt (isPlain_of_isName hkeyword) hlocation

theorem operationName : Stays I operationName :=
  skipBlanks.bind fun _ _ => peek.bind fun _ _ => by
    split
    · exact name.bind fun _ _ => skipBlanks.bind fun _ _ => pure trivial
    · exact pure trivial

theorem operationSelections : Stays I operationSelections :=
  noDirective.bind fun _ _ => peek.bind fun _ _ => by
    split
    · exact selections _
    · exact fail .nil

theorem operation : Keeps I operation fun o => o.WellFormed ∧ I.Reached o.location := by
  have hoperation : Keeps I Reading.operation fun o => I.Reached o.location := by
    refine position.bind fun location hlocation => peek.bind fun _ _ => ?_
    split
    · exact (selections _).bind fun _ _ => pure hlocation
    · exact name.bind fun keyword hkeyword => (operationKind hlocation hkeyword).bind fun _ _ =>
        operationName.bind fun _ _ => variableDefinitions.bind fun _ _ =>
          operationSelections.bind fun _ _ => pure hlocation
  exact hoperation.imp_of_ok fun _ _ _ hrun hlocation => ⟨(read_of_operation hrun).2, hlocation⟩

/-! ## §8 Documents -/

theorem nextOperation (earlier : List Operation) :
    Keeps I (nextOperation earlier) fun found => ∀ o ∈ found, I.Reached o.location := by
  refine skipBlanks.bind fun _ _ => peek.bind fun found _ => ?_
  cases found with
  | none => exact pure (by simp)
  | some _ =>
    refine operation.bind fun o ho => ?_
    obtain ⟨hwellFormed, hlocation⟩ := ho
    split
    · refine failAt ?_ hlocation
      show IsPlain (o.name.getD [])
      cases hname : o.name with
      | none => exact .nil
      | some text => exact isPlain_of_isName (hwellFormed.name text hname)
    · exact pure (by simpa using hlocation)

theorem document : Stays I document := by
  refine skipBlanks.bind fun _ _ => peek.bind fun _ _ => ?_
  split
  · exact fail .nil
  · refine (many nextOperation).bind fun operations hoperations => ?_
    split
    · rename_i anonymous hanonymous
      split
      · exact failAt .nil (hoperations anonymous (List.mem_of_find?_eq_some hanonymous))
      · exact pure trivial
    · exact pure trivial

end Keeps

end Reading

end GraphQL
