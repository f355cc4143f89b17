/-
GraphQL.Proofs.Reading.Positions — the positions in documents and in failures are
those of the text.

  §1 Standing    — cursors that stand in a text.
  §2 Placing     — readings that mark what they give with the positions of words.
  §3 Loops       — items one after another.
  §4 Literals    — by induction on the nesting budget.
  §5 Selections  — fields, and by induction on the nesting budget again.
  §6 Operations  — variables, and the two ways to begin.
  §7 Documents   — every node of a document, and every failure.

A node takes the position of the cursor where its reading begins. There the blanks
have been skipped, so its first word begins right at the cursor.
-/
import GraphQL.Proofs.Grammar.Marked
import GraphQL.Proofs.Reading.Invariant

namespace GraphQL

/-! ## §1 Standing -/

/-- What is left at the cursor is the last part of the text, and its position is
where that begins. -/
structure Cursor.StandsIn (text : Bytes) (c : Cursor) : Prop where
  suffix : c.rest <:+ text
  location : c.location = .before text c.rest

theorem Cursor.standsIn_start (text : Bytes) : Cursor.StandsIn text ⟨text, .start⟩ :=
  ⟨List.suffix_rfl, by rw [Location.before, Nat.sub_self, Location.of_zero]⟩

namespace Reading

/-- To stand in a text is kept by every byte. -/
def standing (text : Bytes) : Invariant where
  holds := Cursor.StandsIn text
  after := by
    intro b rest location h
    have hlocation : location = .before text (b :: rest) := h.location
    refine ⟨(List.suffix_cons b rest).trans h.suffix, ?_⟩
    rw [hlocation]
    exact (Location.before_cons h.suffix).symm

theorem isIn_of_reached {text : Bytes} {location : Location}
    (h : (standing text).Reached location) : location.IsIn text := by
  obtain ⟨c, hc, rfl⟩ := h
  exact ⟨_, Nat.sub_le _ _, hc.location⟩

variable {α : Type} {source : Bytes}

theorem standsIn_of_ok {r : Reading α} {P : α → Prop} (hr : Keeps (standing source) r P)
    {c c' : Cursor} {a : α} (hc : c.StandsIn source) (hrun : r.run c = .ok (a, c')) :
    c'.StandsIn source :=
  (hr.of_ok hc hrun).2

/-! ## §2 Placing -/

/-- From a cursor that stands in `source`, what `r` gives was written as its pieces, and
their marks are the positions of the words. -/
def Places (source : Bytes) (r : Reading α) (pieces : α → List Piece) : Prop :=
  ∀ ⦃c a c'⦄, c.StandsIn source → r.run c = .ok (a, c') →
    ReadMarked source (pieces a) c.rest c'.rest

/-- `Places` for a reading that begins at a word. -/
def PlacesHere (source : Bytes) (r : Reading α) (pieces : α → List Piece) : Prop :=
  ∀ ⦃c a c'⦄, c.StandsIn source → Settled c.rest → r.run c = .ok (a, c') →
    ReadMarked source (pieces a) c.rest c'.rest

theorem Places.here {r : Reading α} {pieces : α → List Piece} (h : Places source r pieces) :
    PlacesHere source r pieces := fun _ _ _ hc _ hrun => h hc hrun

theorem eq_nil_of_settled {gap rest : Bytes} (hgap : Ignored gap) (h : Settled (gap ++ rest)) :
    gap = [] := by
  cases hgap with
  | nil => rfl
  | @blank b _ hb _ =>
    have := (h b rfl).1
    rw [hb] at this
    cases this
  | comment => exact absurd rfl (h _ rfl).2

/-- At a cursor with no blanks after it, the first word is at the cursor. -/
theorem readMarked_beginning {c : Cursor} {ps : List Piece} {rest : Bytes} (hc : c.StandsIn source)
    (hsettled : Settled c.rest) (h : ReadMarked source ps c.rest rest) :
    ReadMarked source (beginning c.location ps) c.rest rest := by
  obtain ⟨middle, hlaid, hgap⟩ := h
  refine ⟨middle, ?_, hgap⟩
  cases ps with
  | nil => exact hlaid
  | cons p ps =>
    obtain ⟨gap, word, after, htext, hg, hword, hstop, -, hps⟩ := hlaid
    rw [htext] at hsettled
    obtain rfl := eq_nil_of_settled hg hsettled
    refine ⟨[], word, after, htext, .nil, hword, hstop, ?_, hps⟩
    rintro _ ⟨⟩
    rw [hc.location, htext, List.nil_append]

/-! ## §3 Loops -/

theorem readMarked_of_repeats {step : List α → Reading (Option α)} {pieces : α → List Piece}
    (hstays : ∀ items, Stays (standing source) (step items))
    (hsome : ∀ ⦃earlier c a c'⦄, c.StandsIn source → (step earlier).run c = .ok (some a, c') →
      ReadMarked source (pieces a) c.rest c'.rest)
    (hnone : ∀ ⦃earlier c c'⦄, (step earlier).run c = .ok (none, c') → Read [] c.rest c'.rest)
    {earlier later : List α} {c c' : Cursor} (h : Repeats step earlier c later c') :
    c.StandsIn source → ReadMarked source (later.flatMap pieces) c.rest c'.rest := by
  induction h with
  | stop hfound => exact fun _ => (hnone hfound).plain
  | next hfound _ ih =>
    exact fun hc => (hsome hc hfound).append (ih (standsIn_of_ok (hstays _) hc hfound))

section Items

variable {item : List α → Reading α} {tokens : α → List Token} {pieces : α → List Piece}
  {Q : List α → α → Prop}

theorem readMarked_of_untilStep (hitem : ∀ earlier, PlacesHere source (item earlier) pieces)
    {closing : UInt8} {earlier : List α} {c c' : Cursor} {a : α} (hc : c.StandsIn source)
    (h : (untilStep closing item earlier).run c = .ok (some a, c')) :
    ReadMarked source (pieces a) c.rest c'.rest := by
  obtain ⟨_, settled, hskip, h⟩ := bind_ok.mp h
  obtain ⟨found, _, hpeek, h⟩ := bind_ok.mp h
  obtain ⟨rfl, rfl⟩ := peek_ok.mp hpeek
  obtain ⟨hgap, hsettled⟩ := gap_of_skipBlanks hskip
  split at h
  · exact (fail_ok.mp h).elim
  · split at h
    · cases (pure_ok.mp h).1
    · obtain ⟨a', ha, heq⟩ := map_ok.mp h
      obtain rfl := Option.some.inj heq
      have hstands := standsIn_of_ok Keeps.skipBlanks hc hskip
      exact hgap.read.plain.append (hitem earlier hstands hsettled ha)

theorem places_itemsUntil {closing : UInt8} (hclosing : IsPlain [closing])
    (hgives : ∀ earlier, Gives (item earlier) tokens (Q earlier)) (hne : ∀ a, tokens a ≠ [])
    (hstays : ∀ earlier, Stays (standing source) (item earlier))
    (hitem : ∀ earlier, PlacesHere source (item earlier) pieces) :
    Places source (itemsUntil closing item) (·.flatMap pieces) := by
  intro c items c' hc h
  rw [itemsUntil_eq, many_ok (progresses_untilStep closing hgives hne)] at h
  exact readMarked_of_repeats (Keeps.untilStep hclosing hstays)
    (fun _ _ _ _ hc h => readMarked_of_untilStep hitem hc h)
    (fun _ _ _ h => read_of_untilStep_none h) h hc

theorem readMarked_of_parenthesisedStep (hitem : ∀ earlier, PlacesHere source (item earlier) pieces)
    {earlier : List α} {c c' : Cursor} {a : α} (hc : c.StandsIn source)
    (h : (parenthesisedStep item earlier).run c = .ok (some a, c')) :
    ReadMarked source (pieces a) c.rest c'.rest := by
  obtain ⟨_, settled, hskip, h⟩ := bind_ok.mp h
  obtain ⟨found, _, hpeek, h⟩ := bind_ok.mp h
  obtain ⟨rfl, rfl⟩ := peek_ok.mp hpeek
  obtain ⟨hgap, hsettled⟩ := gap_of_skipBlanks hskip
  split at h
  · cases (pure_ok.mp h).1
  · obtain ⟨a', ha, heq⟩ := map_ok.mp h
    obtain rfl := Option.some.inj heq
    have hstands := standsIn_of_ok Keeps.skipBlanks hc hskip
    exact hgap.read.plain.append (hitem earlier hstands hsettled ha)

theorem places_parenthesised (hgives : ∀ earlier, Gives (item earlier) tokens (Q earlier))
    (hne : ∀ a, tokens a ≠ []) (hstays : ∀ earlier, Stays (standing source) (item earlier))
    (hitem : ∀ earlier, PlacesHere source (item earlier) pieces) :
    Places source (parenthesised item) (parenthesisedPieces pieces) := by
  intro c items c' hc h
  have hopenPlain : IsPlain [ascii '('] := by simp [IsPlain]; decide
  rw [parenthesised_eq] at h
  obtain ⟨_, opened, hopen, h⟩ := bind_ok.mp h
  obtain ⟨items', _, hitems, h⟩ := bind_ok.mp h
  obtain ⟨_, _, hclose, h⟩ := bind_ok.mp h
  obtain ⟨rfl, rfl⟩ := pure_ok.mp h
  have hstands := standsIn_of_ok (Keeps.expect hopenPlain) hc hopen
  have hrepeats := (many_ok (progresses_parenthesisedStep hgives hne)).mp hitems
  have hread := readMarked_of_repeats (Keeps.parenthesisedStep hstays)
    (fun _ _ _ _ hc h => readMarked_of_parenthesisedStep hitem hc h)
    (fun _ _ _ h => (read_of_parenthesisedStep_none h).1) hrepeats hstands
  have hall := ((read_of_expect .openParen hopen).plain.append hread).append
    (read_of_expect .closeParen hclose).plain
  -- The loop does not stop before the first item.
  cases hrepeats with
  | stop hfound => exact absurd rfl (read_of_parenthesisedStep_none hfound).2
  | next _ _ => exact hall

end Items

/-! ## §4 Literals -/

theorem places_entry {value : Reading α} {pieces : α → List Piece}
    (hvalue : Places source value pieces)
    (duplicate : Bytes → SyntaxProblem) (earlier : List (Entry α)) :
    PlacesHere source (entry duplicate value earlier) (Entry.pieces pieces) := by
  intro c e c' hc hsettled h
  have hcolonPlain : IsPlain [ascii ':'] := by simp [IsPlain]; decide
  obtain ⟨location, _, hposition, h⟩ := bind_ok.mp h
  obtain ⟨rfl, rfl⟩ := position_ok.mp hposition
  obtain ⟨word, named, hname, h⟩ := bind_ok.mp h
  split at h
  · exact (failAt_ok.mp h).elim
  · obtain ⟨_, _, hcolon, h⟩ := bind_ok.mp h
    obtain ⟨v, _, hv, h⟩ := bind_ok.mp h
    obtain ⟨rfl, rfl⟩ := pure_ok.mp h
    have hnamed := standsIn_of_ok Keeps.name hc hname
    have hstands := standsIn_of_ok (Keeps.expect hcolonPlain) hnamed hcolon
    have hread : ReadMarked source _ c.rest _ :=
      ((read_of_name hname).1.append (read_of_expect .colon hcolon)).plain
    exact readMarked_beginning hc hsettled (hread.append (hvalue hstands hv))

/-- A literal reading whose lists and objects have been dealt with. -/
structure PlacesLiteral (source : Bytes) (references : References) (r : Reading Literal) :
    Prop where
  places : Places source r Literal.pieces
  stays : Stays (standing source) r
  gives : ∃ budget, Gives r Literal.tokens (Fits references budget)

section Literals

variable {references : References} {inner : Reading Literal} {c c' : Cursor} {l : Literal}

theorem readMarked_of_listLiteral (hinner : PlacesLiteral source references inner)
    (hc : c.StandsIn source) (hsettled : Settled c.rest)
    (h : (listLiteral c.location inner).run c = .ok (l, c')) :
    ReadMarked source l.pieces c.rest c'.rest := by
  have hopenPlain : IsPlain [ascii '['] := by simp [IsPlain]; decide
  have hclosePlain : IsPlain [ascii ']'] := by simp [IsPlain]; decide
  obtain ⟨budget, hgives⟩ := hinner.gives
  obtain ⟨_, _, hopen, h⟩ := bind_ok.mp h
  obtain ⟨items, _, hitems, h⟩ := bind_ok.mp h
  obtain ⟨_, _, hclose, h⟩ := bind_ok.mp h
  obtain ⟨rfl, rfl⟩ := pure_ok.mp h
  have hstands := standsIn_of_ok (Keeps.expect hopenPlain) hc hopen
  have hread := places_itemsUntil hclosePlain (Q := fun _ => Fits references budget)
    (fun _ => hgives) Literal.tokens_ne_nil (fun _ => hinner.stays) (fun _ => hinner.places.here)
    hstands hitems
  rw [Literal.pieces, Literal.itemPieces_eq]
  exact readMarked_beginning hc hsettled (((read_of_expect .openBracket hopen).plain.append
    hread).append (read_of_expect .closeBracket hclose).plain)

theorem readMarked_of_objectLiteral (hinner : PlacesLiteral source references inner)
    (hc : c.StandsIn source) (hsettled : Settled c.rest)
    (h : (objectLiteral c.location inner).run c = .ok (l, c')) :
    ReadMarked source l.pieces c.rest c'.rest := by
  have hopenPlain : IsPlain [ascii '\x7b'] := by simp [IsPlain]; decide
  have hclosePlain : IsPlain [ascii '\x7d'] := by simp [IsPlain]; decide
  obtain ⟨budget, hgives⟩ := hinner.gives
  obtain ⟨_, _, hopen, h⟩ := bind_ok.mp h
  obtain ⟨fields, _, hfields, h⟩ := bind_ok.mp h
  obtain ⟨_, _, hclose, h⟩ := bind_ok.mp h
  obtain ⟨rfl, rfl⟩ := pure_ok.mp h
  have hstands := standsIn_of_ok (Keeps.expect hopenPlain) hc hopen
  have hread := places_itemsUntil hclosePlain (gives_entry .duplicateInputField hgives)
    (by simp [Entry.tokens]) (Keeps.entry (fun _ => rfl) hinner.stays)
    (places_entry hinner.places _) hstands hfields
  rw [Literal.pieces, Literal.fieldPieces_eq]
  exact readMarked_beginning hc hsettled (((read_of_expect .openBrace hopen).plain.append
    hread).append (read_of_expect .closeBrace hclose).plain)

/-- A literal with no literals inside begins with the first of its tokens. -/
theorem readMarked_of_leaf (hc : c.StandsIn source) (hsettled : Settled c.rest)
    (hpieces : l.pieces = beginning c.location (l.tokens.map Token.plain))
    (h : Read l.tokens c.rest c'.rest) : ReadMarked source l.pieces c.rest c'.rest := by
  rw [hpieces]
  exact readMarked_beginning hc hsettled h.plain

theorem pieces_wordOf (location : Location) (word : Bytes) : (wordOf location word).pieces =
    beginning location ((wordOf location word).tokens.map Token.plain) := by
  unfold wordOf
  split_ifs <;> rfl

theorem pieces_of_reference {location : Location}
    (h : (reference references location).run c = .ok (l, c')) :
    l.pieces = beginning location (l.tokens.map Token.plain) := by
  obtain ⟨_, _, _, h⟩ := bind_ok.mp h
  obtain ⟨word, _, _, h⟩ := bind_ok.mp h
  cases references with
  | refused => exact (failAt_ok.mp h).elim
  | allowed =>
    obtain ⟨rfl, -⟩ := pure_ok.mp h
    rfl

theorem places_literalWith {inner : Option (Reading Literal)}
    (hinner : ∀ r ∈ inner, PlacesLiteral source references r) :
    Places source (literalWith references inner) Literal.pieces := by
  intro c l c' hc h
  obtain ⟨_, settled, hskip, h⟩ := bind_ok.mp h
  obtain ⟨location, _, hposition, h⟩ := bind_ok.mp h
  obtain ⟨rfl, rfl⟩ := position_ok.mp hposition
  obtain ⟨found, _, hpeek, h⟩ := bind_ok.mp h
  obtain ⟨rfl, rfl⟩ := peek_ok.mp hpeek
  obtain ⟨hgap, hsettled⟩ := gap_of_skipBlanks hskip
  have hstands : settled.StandsIn source := standsIn_of_ok Keeps.skipBlanks hc hskip
  suffices hsuffices : ReadMarked source l.pieces settled.rest c'.rest from
    hgap.read.plain.append hsuffices
  split at h
  · exact (fail_ok.mp h).elim
  · rename_i b hb
    split at h
    · rename_i hdollar
      have hreference : Read l.tokens settled.rest c'.rest ∧ Fits references 0 l :=
        gives_reference references (hdollar ▸ hb) h
      exact readMarked_of_leaf hstands hsettled (pieces_of_reference h) hreference.1
    · split at h
      · rename_i hquote
        obtain ⟨characters, rfl, hread⟩ := read_of_string (hquote ▸ hb) h
        exact readMarked_of_leaf hstands hsettled rfl hread
      · split at h
        · obtain ⟨hread, hkind⟩ := read_of_number h
          rcases hkind with ⟨value, rfl⟩ | ⟨value, rfl⟩
          · exact readMarked_of_leaf hstands hsettled rfl hread
          · exact readMarked_of_leaf hstands hsettled rfl hread
        · split at h
          · cases inner with
            | none => exact (fail_ok.mp h).elim
            | some r => exact readMarked_of_listLiteral (hinner r rfl) hstands hsettled h
          · split at h
            · cases inner with
              | none => exact (fail_ok.mp h).elim
              | some r => exact readMarked_of_objectLiteral (hinner r rfl) hstands hsettled h
            · split at h
              · obtain ⟨word, hword, rfl⟩ := map_ok.mp h
                obtain ⟨hread, hlexical⟩ := read_of_name hword
                have hspec : (wordOf settled.location word).tokens = [.name word] ∧
                    Fits references 0 (wordOf settled.location word) := wordOf_spec _ hlexical
                exact readMarked_of_leaf hstands hsettled (pieces_wordOf _ _) (hspec.1 ▸ hread)
              · exact (fail_ok.mp h).elim

end Literals

theorem places_literal (source : Bytes) (references : References) (budget : Nat) :
    PlacesLiteral source references (literal references budget) := by
  refine ⟨?_, Keeps.literal references budget, budget, gives_literal references budget⟩
  induction budget with
  | zero => exact places_literalWith (by simp)
  | succ budget ih =>
    have hinner : PlacesLiteral source references (literal references budget) :=
      ⟨ih, Keeps.literal references budget, budget, gives_literal references budget⟩
    exact places_literalWith (by simpa using hinner)

/-! ## §5 Selections -/

theorem places_fieldArguments {value : Reading Literal}
    (hvalue : PlacesLiteral source .allowed value) :
    Places source (fieldArguments value) argumentPieces := by
  intro c arguments c' hc h
  obtain ⟨budget, hgives⟩ := hvalue.gives
  obtain ⟨found, _, hpeek, h⟩ := bind_ok.mp h
  obtain ⟨rfl, rfl⟩ := peek_ok.mp hpeek
  split at h
  · obtain ⟨arguments', _, harguments, h⟩ := bind_ok.mp h
    obtain ⟨_, _, hskip, h⟩ := bind_ok.mp h
    obtain ⟨rfl, rfl⟩ := pure_ok.mp h
    have hread := places_parenthesised (gives_entry .duplicateArgument hgives)
      (by simp [Entry.tokens]) (Keeps.entry (fun _ => rfl) hvalue.stays)
      (places_entry hvalue.places _) hc harguments
    have hall := hread.append (gap_of_skipBlanks hskip).1.read.plain
    rwa [List.map_nil, List.append_nil] at hall
  · obtain ⟨rfl, rfl⟩ := pure_ok.mp h
    exact (Gap.refl _).read.plain

theorem places_field {value : Reading Literal} {selections : Reading (List Field)}
    (hvalue : PlacesLiteral source .allowed value)
    (hselections : Places source selections bracedPieces) {budget : Nat}
    (hgives : GivesNested selections budget) :
    PlacesHere source (field value selections) Field.pieces := by
  intro c f c' hc hsettled h
  obtain ⟨location, _, hposition, h⟩ := bind_ok.mp h
  obtain ⟨rfl, rfl⟩ := position_ok.mp hposition
  obtain ⟨⟨aliasName, word⟩, named, hnames, h⟩ := bind_ok.mp h
  obtain ⟨arguments, _, harguments, h⟩ := bind_ok.mp h
  obtain ⟨_, _, hdirective, h⟩ := bind_ok.mp h
  obtain rfl := read_of_noDirective hdirective
  obtain ⟨found, _, hpeek, h⟩ := bind_ok.mp h
  obtain ⟨rfl, rfl⟩ := peek_ok.mp hpeek
  have hnamed := standsIn_of_ok Keeps.aliasAndName hc hnames
  have hstands := standsIn_of_ok (Keeps.fieldArguments hvalue.stays) hnamed harguments
  have hread := (read_of_aliasAndName hnames).1.plain.append
    (places_fieldArguments hvalue hnamed harguments)
  split at h
  · obtain ⟨nested, _, hnested, h⟩ := bind_ok.mp h
    obtain ⟨rfl, rfl⟩ := pure_ok.mp h
    obtain ⟨-, hne, -⟩ := hgives hnested
    rw [Field.pieces, Field.nestedPieces_eq, if_neg (by simpa using hne)]
    exact readMarked_beginning hc hsettled (hread.append (hselections hstands hnested))
  · obtain ⟨rfl, rfl⟩ := pure_ok.mp h
    rw [Field.pieces, Field.nestedPieces, List.append_nil]
    exact readMarked_beginning hc hsettled hread

theorem places_selection {field : Reading Field} (hfield : PlacesHere source field Field.pieces) :
    PlacesHere source (selection field) Field.pieces := by
  intro c f c' hc hsettled h
  obtain ⟨found, _, hpeek, h⟩ := bind_ok.mp h
  obtain ⟨rfl, rfl⟩ := peek_ok.mp hpeek
  split at h
  · exact (fail_ok.mp h).elim
  · exact hfield hc hsettled h

theorem places_bracedFields {field : Reading Field} {P : Field → Prop}
    (hgives : Gives field Field.tokens P) (hstays : Stays (standing source) field)
    (hfield : PlacesHere source field Field.pieces) :
    Places source (bracedFields field) bracedPieces := by
  intro c fields c' hc h
  have hopenPlain : IsPlain [ascii '\x7b'] := by simp [IsPlain]; decide
  have hclosePlain : IsPlain [ascii '\x7d'] := by simp [IsPlain]; decide
  obtain ⟨_, _, hopen, h⟩ := bind_ok.mp h
  obtain ⟨fields', _, hfields, h⟩ := bind_ok.mp h
  split at h
  · exact (fail_ok.mp h).elim
  · obtain ⟨_, _, hclose, h⟩ := bind_ok.mp h
    obtain ⟨rfl, rfl⟩ := pure_ok.mp h
    have hstands := standsIn_of_ok (Keeps.expect hopenPlain) hc hopen
    have hread := places_itemsUntil hclosePlain (Q := fun _ => P)
      (fun _ => gives_selection hgives) Field.tokens_ne_nil (fun _ => Keeps.selection hstays)
      (fun _ => places_selection hfield) hstands hfields
    exact ((read_of_expect .openBrace hopen).plain.append hread).append
      (read_of_expect .closeBrace hclose).plain

theorem places_selections (source : Bytes) (budget : Nat) :
    Places source (selections budget) bracedPieces := by
  induction budget with
  | zero => exact fun _ _ _ _ h => (fail_ok.mp h).elim
  | succ budget ih =>
    have hvalue := places_literal source .allowed budget
    exact places_bracedFields
      (gives_field (gives_literal .allowed budget) (gives_selections budget))
      (Keeps.field hvalue.stays (Keeps.selections budget))
      (places_field hvalue ih (gives_selections budget))

/-! ## §6 Operations -/

theorem places_defaultValue : Places source defaultValue defaultPieces := by
  intro c default c' hc h
  obtain ⟨found, _, haccept, h⟩ := bind_ok.mp h
  have hequals := read_of_accept .equals haccept
  split at h
  · rename_i hfound
    obtain ⟨value, hvalue, rfl⟩ := map_ok.mp h
    rw [if_pos hfound] at hequals
    have hstands := standsIn_of_ok (Keeps.accept _) hc haccept
    exact hequals.plain.append
      ((places_literal source .refused nestingLimit).places hstands hvalue)
  · rename_i hfound
    obtain ⟨rfl, rfl⟩ := pure_ok.mp h
    rw [if_neg hfound] at hequals
    exact hequals.plain

theorem places_variableDefinition (source : Bytes) (earlier : List VariableDefinition) :
    PlacesHere source (variableDefinition earlier) VariableDefinition.pieces := by
  intro c definition c' hc hsettled h
  have hdollarPlain : IsPlain [ascii '$'] := by simp [IsPlain]; decide
  have hcolonPlain : IsPlain [ascii ':'] := by simp [IsPlain]; decide
  obtain ⟨location, _, hposition, h⟩ := bind_ok.mp h
  obtain ⟨rfl, rfl⟩ := position_ok.mp hposition
  obtain ⟨_, _, hdollar, h⟩ := bind_ok.mp h
  obtain ⟨word, _, hname, h⟩ := bind_ok.mp h
  split at h
  · exact (failAt_ok.mp h).elim
  · obtain ⟨_, _, hcolon, h⟩ := bind_ok.mp h
    obtain ⟨type, _, htype, h⟩ := bind_ok.mp h
    obtain ⟨default, _, hdefault, h⟩ := bind_ok.mp h
    obtain ⟨rfl, rfl⟩ := pure_ok.mp h
    have hsigned := standsIn_of_ok (Keeps.expect hdollarPlain) hc hdollar
    have hnamed := standsIn_of_ok Keeps.name hsigned hname
    have htyped := standsIn_of_ok (Keeps.expect hcolonPlain) hnamed hcolon
    have hstands := standsIn_of_ok (Keeps.writtenType _) htyped htype
    have hread := (((read_of_expect .dollar hdollar).append (read_of_name hname).1).append
      (read_of_expect .colon hcolon)).append (gives_writtenType nestingLimit htype).1
    exact readMarked_beginning hc hsettled
      (hread.plain.append (places_defaultValue hstands hdefault))

theorem places_variableDefinitions : Places source variableDefinitions
    (parenthesisedPieces VariableDefinition.pieces) := by
  intro c definitions c' hc h
  obtain ⟨found, _, hpeek, h⟩ := bind_ok.mp h
  obtain ⟨rfl, rfl⟩ := peek_ok.mp hpeek
  split at h
  · obtain ⟨definitions', _, hdefinitions, h⟩ := bind_ok.mp h
    obtain ⟨_, _, hskip, h⟩ := bind_ok.mp h
    obtain ⟨rfl, rfl⟩ := pure_ok.mp h
    have hread := places_parenthesised gives_variableDefinition
      (by simp [VariableDefinition.tokens]) Keeps.variableDefinition
      (places_variableDefinition source) hc hdefinitions
    have hall := hread.append (gap_of_skipBlanks hskip).1.read.plain
    rwa [List.map_nil, List.append_nil] at hall
  · obtain ⟨rfl, rfl⟩ := pure_ok.mp h
    exact (Gap.refl _).read.plain

theorem places_operationSelections : Places source operationSelections bracedPieces := by
  intro c fields c' hc h
  obtain ⟨_, _, hdirective, h⟩ := bind_ok.mp h
  obtain rfl := read_of_noDirective hdirective
  obtain ⟨found, _, hpeek, h⟩ := bind_ok.mp h
  obtain ⟨rfl, rfl⟩ := peek_ok.mp hpeek
  split at h
  · exact places_selections source nestingLimit hc h
  · exact (fail_ok.mp h).elim

/-- An operation has several token sequences, so it is stated which one was read. -/
theorem readMarked_of_operation {o : Operation} {c c' : Cursor} (hc : c.StandsIn source)
    (hsettled : Settled c.rest) (h : operation.run c = .ok (o, c')) :
    ∃ pieces, o.MarkedForm pieces ∧ ReadMarked source pieces c.rest c'.rest := by
  obtain ⟨location, _, hposition, h⟩ := bind_ok.mp h
  obtain ⟨rfl, rfl⟩ := position_ok.mp hposition
  obtain ⟨found, _, hpeek, h⟩ := bind_ok.mp h
  obtain ⟨rfl, rfl⟩ := peek_ok.mp hpeek
  split at h
  · obtain ⟨fields, _, hfields, h⟩ := bind_ok.mp h
    obtain ⟨rfl, rfl⟩ := pure_ok.mp h
    exact ⟨_, .short rfl rfl rfl,
      readMarked_beginning hc hsettled (places_selections source nestingLimit hc hfields)⟩
  · obtain ⟨keyword, _, hkeyword, h⟩ := bind_ok.mp h
    obtain ⟨kind, _, hkind, h⟩ := bind_ok.mp h
    obtain ⟨name, _, hname, h⟩ := bind_ok.mp h
    obtain ⟨definitions, _, hdefinitions, h⟩ := bind_ok.mp h
    obtain ⟨fields, _, hfields, h⟩ := bind_ok.mp h
    obtain ⟨rfl, rfl⟩ := pure_ok.mp h
    obtain ⟨rfl, rfl⟩ := read_of_operationKind hkind
    have hbegun := standsIn_of_ok Keeps.name hc hkeyword
    have hnamed := standsIn_of_ok Keeps.operationName hbegun hname
    have hstands := standsIn_of_ok Keeps.variableDefinitions hnamed hdefinitions
    have hread := (read_of_name hkeyword).1.append (gives_operationName hname).1
    exact ⟨_, .full, readMarked_beginning hc hsettled ((hread.plain.append
      (places_variableDefinitions hnamed hdefinitions)).append
        (places_operationSelections hstands hfields))⟩

/-! ## §7 Documents -/

/-- What one step of reading operations gives, with its marks. -/
theorem readMarked_of_nextOperation {earlier : List Operation} {o : Operation} {c c' : Cursor}
    (hc : c.StandsIn source) (h : (nextOperation earlier).run c = .ok (some o, c')) :
    ∃ pieces, o.MarkedForm pieces ∧ ReadMarked source pieces c.rest c'.rest := by
  obtain ⟨_, settled, hskip, h⟩ := bind_ok.mp h
  obtain ⟨next, _, hpeek, h⟩ := bind_ok.mp h
  obtain ⟨rfl, rfl⟩ := peek_ok.mp hpeek
  obtain ⟨hgap, hsettled⟩ := gap_of_skipBlanks hskip
  split at h
  · cases (pure_ok.mp h).1
  · obtain ⟨o', _, ho, h⟩ := bind_ok.mp h
    split at h
    · exact (failAt_ok.mp h).elim
    · obtain ⟨heq, rfl⟩ := pure_ok.mp h
      obtain rfl := Option.some.inj heq
      obtain ⟨pieces, hform, hread⟩ :=
        readMarked_of_operation (standsIn_of_ok Keeps.skipBlanks hc hskip) hsettled ho
      exact ⟨pieces, hform, hgap.read.plain.append hread⟩

theorem readMarked_of_operations {earlier later : List Operation} {c c' : Cursor}
    (h : Repeats nextOperation earlier c later c') (hc : c.StandsIn source) :
    ∃ parts, List.Forall₂ Operation.MarkedForm later parts ∧
      ReadMarked source parts.flatten c.rest [] := by
  induction h with
  | stop hfound =>
    obtain ⟨hread, hend⟩ := read_of_nextOperation hfound
    exact ⟨[], .nil, hend ▸ hread.plain⟩
  | next hfound _ ih =>
    obtain ⟨pieces, hform, hread⟩ := readMarked_of_nextOperation hc hfound
    obtain ⟨parts, hforms, hmore⟩ := ih (standsIn_of_ok (Keeps.nextOperation _) hc hfound)
    exact ⟨pieces :: parts, .cons hform hforms, hread.append hmore⟩

theorem readMarked_of_document {d : Document} {c c' : Cursor} (hc : c.StandsIn source)
    (h : document.run c = .ok (d, c')) :
    ∃ pieces, d.MarkedForm pieces ∧ ReadMarked source pieces c.rest [] := by
  obtain ⟨_, settled, hskip, h⟩ := bind_ok.mp h
  obtain ⟨next, _, hpeek, h⟩ := bind_ok.mp h
  obtain ⟨rfl, rfl⟩ := peek_ok.mp hpeek
  have hgap := (gap_of_skipBlanks hskip).1
  split at h
  · exact (fail_ok.mp h).elim
  · obtain ⟨operations, _, hoperations, h⟩ := bind_ok.mp h
    obtain ⟨parts, hforms, hread⟩ := readMarked_of_operations
      ((many_ok progresses_nextOperation).mp hoperations) (standsIn_of_ok Keeps.skipBlanks hc hskip)
    have hall : ∃ pieces, Document.MarkedForm ⟨operations⟩ pieces ∧
        ReadMarked source pieces c.rest [] :=
      ⟨_, ⟨parts, hforms, rfl⟩, hgap.read.plain.append hread⟩
    split at h
    · split at h
      · exact (failAt_ok.mp h).elim
      · obtain ⟨rfl, rfl⟩ := pure_ok.mp h
        exact hall
    · obtain ⟨rfl, rfl⟩ := pure_ok.mp h
      exact hall

end Reading

/-- The positions in a document that is read, and that of a failure, are those of the
text. The tokens of the document stand in the text one after another, and each node gives
the position of the offset where its first token stands. A failure gives the position of
some offset of the text. -/
theorem Document.ofText_positions (text : Bytes) :
    match Document.ofText text with
    | .ok document => ∃ placed : List (Piece × Nat),
        document.MarkedForm (placed.map (·.1)) ∧ document.Form (placed.map (·.1.token)) ∧
          StandsAt text 0 placed ∧ (placed.map (·.2)).Pairwise (· < ·) ∧
          ∀ p ∈ placed, ∀ location ∈ p.1.mark, location = .of text p.2
    | .error error => ∃ offset ≤ text.length, error.location = .of text offset := by
  have hstart := Cursor.standsIn_start text
  rw [Document.ofText]
  cases hrun : Reading.document.run ⟨text, .start⟩ with
  | ok result =>
    obtain ⟨pieces, hform, middle, hlaid, hgap⟩ := Reading.readMarked_of_document hstart hrun
    obtain ⟨placed, rfl, hplaced, hmarks⟩ :=
      hlaid.standsAt (List.nil_append text).symm hgap.trailing
    have htokens := Document.form_of_markedForm hform
    rw [List.map_map] at htokens
    exact ⟨placed, hform, htokens, hplaced, hplaced.increasing.2, hmarks⟩
  | error error =>
    have hdocument : Reading.Stays (Reading.standing text) Reading.document :=
      Reading.Keeps.document
    exact Reading.isIn_of_reached (hdocument.of_error hstart hrun).2

end GraphQL
