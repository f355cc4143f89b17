/-
GraphQL.Proofs.Reading.CompleteLiteral — every layout of a literal is read, and
gives that literal.

  §1 Acceptance  — readings that take every layout of given tokens.
  §2 Next token  — what its first byte tells, and what may not come next.
  §3 Loops       — a step that takes each item takes them all.
  §4 Literals    — by induction on the nesting budget.

Locations depend on the layout, so results are compared up to `unplaced`. What
a reading looks at after its own tokens is a condition on those that follow.
-/
import GraphQL.Proofs.Document.Unplaced
import GraphQL.Proofs.Reading.SoundLiteral

namespace GraphQL.Reading

variable {α β : Type}

/-! ## §1 Acceptance -/

/-- Wherever the tokens are laid out before some that `ok` admits, `r` takes them
and its result satisfies `P`. -/
def Accepts (r : Reading α) (tokens : List Token) (ok : List Token → Prop) (P : α → Prop) : Prop :=
  ∀ ⦃following text rest⦄, ok following → Laid (tokens ++ following) text rest →
    Runs r text fun a middle => P a ∧ Laid following middle rest

/-- `Accepts` for a reading that begins at a word. -/
def AcceptsHere (r : Reading α) (tokens : List Token) (ok : List Token → Prop) (P : α → Prop) :
    Prop :=
  ∀ ⦃following text rest⦄, ok following → Standing (tokens ++ following) text rest →
    Runs r text fun a middle => P a ∧ Laid following middle rest

theorem Accepts.here {r : Reading α} {tokens : List Token} {ok : List Token → Prop} {P : α → Prop}
    (h : Accepts r tokens ok P) : AcceptsHere r tokens ok P :=
  fun _ _ _ hok hstanding => h hok hstanding.laid

/-- No condition on what follows. -/
def Anything (_ : List Token) : Prop := True

/-! ## §2 Next token -/

theorem Punctuator.eq_of_byte : ∀ {first second : Punctuator}, first.byte = second.byte →
    first = second := by
  intro first second h
  cases first <;> cases second <;> first | rfl | exact absurd h (by decide)

/-- The first byte tells punctuators from each other and from all else. -/
theorem beginsWith_eq_byte {t : Token} {b : UInt8} (h : t.BeginsWith b) (sign : Punctuator) :
    b = sign.byte ↔ t = .punctuator sign := by
  have hname : isNameStart sign.byte = false := by cases sign <;> decide
  have hnumber : sign.byte ≠ ascii '-' ∧ isDigit sign.byte = false := by cases sign <;> decide
  have hquote : sign.byte ≠ ascii '"' := by cases sign <;> decide
  cases t with
  | punctuator other =>
    obtain rfl := h
    exact ⟨fun hbyte => by rw [Punctuator.eq_of_byte hbyte], fun heq => by cases heq; rfl⟩
  | name word =>
    refine ⟨?_, fun heq => by cases heq⟩
    intro heq
    subst heq
    exact absurd h (by simp [Token.BeginsWith, hname])
  | int _ | float _ =>
    refine ⟨?_, fun heq => by cases heq⟩
    intro heq
    subst heq
    exact absurd h (by simp [Token.BeginsWith, hnumber])
  | string _ =>
    refine ⟨?_, fun heq => by cases heq⟩
    intro heq
    subst heq
    exact absurd h (by simp [Token.BeginsWith, hquote])

theorem head?_eq_byte {t : Token} {ts : List Token} {text rest : Bytes}
    (h : Standing (t :: ts) text rest) (sign : Punctuator) :
    text.head? = some sign.byte ↔ t = .punctuator sign := by
  obtain ⟨b, hb, hbegins⟩ := h.head?
  rw [hb, Option.some.injEq, beginsWith_eq_byte hbegins]

theorem isNameStart_iff {t : Token} {b : UInt8} (h : t.BeginsWith b) :
    isNameStart b = true ↔ ∃ word, t = .name word := by
  have hdigit : ∀ b, isDigit b = true → isNameStart b = false := by
    have : ∀ b, isDigit b = true → isNameStart b = false := forall_byte (by decide +kernel)
    exact this
  cases t with
  | punctuator sign =>
    obtain rfl := h
    cases sign <;> simp <;> decide
  | name word => exact ⟨fun _ => ⟨word, rfl⟩, fun _ => h⟩
  | int _ | float _ =>
    rcases h with rfl | h
    · simp; decide
    · simp [hdigit b h]
  | string _ =>
    obtain rfl := h
    simp; decide

/-- No token begins with these bytes, which begin a directive and a fragment. -/
theorem head?_ne {t : Token} {ts : List Token} {text rest : Bytes}
    (h : Standing (t :: ts) text rest) :
    text.head? ≠ some (ascii '@') ∧ text.head? ≠ some (ascii '.') := by
  obtain ⟨b, hb, hbegins⟩ := h.head?
  simp only [hb, ne_eq, Option.some.injEq]
  cases t with
  | punctuator sign =>
    obtain rfl := hbegins
    cases sign <;> decide
  | name _ =>
    constructor <;> rintro rfl <;> exact absurd hbegins (by simp [Token.BeginsWith]; decide)
  | int _ | float _ =>
    constructor <;> rintro rfl <;> exact absurd hbegins (by simp [Token.BeginsWith]; decide)
  | string _ =>
    obtain rfl := hbegins
    decide

/-- None of these punctuators comes next, but some token does. -/
def Avoids (signs : List Punctuator) (tokens : List Token) : Prop :=
  ∃ t ts, tokens = t :: ts ∧ ∀ sign ∈ signs, t ≠ .punctuator sign

theorem avoids_cons {signs : List Punctuator} {t : Token} {ts : List Token}
    (h : ∀ sign ∈ signs, t ≠ .punctuator sign) : Avoids signs (t :: ts) := ⟨t, ts, rfl, h⟩

theorem Avoids.exists_cons {signs : List Punctuator} {tokens : List Token}
    (h : Avoids signs tokens) : ∃ t ts, tokens = t :: ts := by
  obtain ⟨t, ts, htokens, _⟩ := h
  exact ⟨t, ts, htokens⟩

theorem head?_ne_of_avoids {signs : List Punctuator} {tokens : List Token} {text rest : Bytes}
    (sign : Punctuator) (h : Standing tokens text rest) (havoids : Avoids signs tokens)
    (hsign : sign ∈ signs) : text.head? ≠ some sign.byte := by
  obtain ⟨t, ts, rfl, ht⟩ := havoids
  rw [ne_eq, head?_eq_byte h]
  exact ht sign hsign

/-! ## §3 Loops -/

section Loops

variable {step : List α → Reading (Option α)} {tokens : α → List Token} {strip : α → β}
  {Q : List α → α → Prop} {ok : List Token → Prop} {following : List Token} {rest : Bytes}
  {all : List α}

/-- A step that takes every next item, and stops after all of them, repeats. The
items before are known up to `strip` only. -/
theorem repeats_of_laid
    (hsome : ∀ ⦃earlier sources a⦄, earlier.map strip = sources.map strip → Q sources a →
      Accepts (step earlier) (tokens a) ok fun found => ∃ b, found = some b ∧ strip b = strip a)
    (hnone : ∀ ⦃earlier text⦄, earlier.map strip = all.map strip → Laid following text rest →
      Runs (step earlier) text fun found middle => found = none ∧ Laid following middle rest)
    (hok : ok following) (hitems : ∀ a after, ok (tokens a ++ after)) :
    ∀ (later earlier : List α) {sources text}, Follows Q sources later →
      later.reverse ++ sources = all → earlier.map strip = sources.map strip →
      Laid (later.flatMap tokens ++ following) text rest →
      ∀ location, ∃ found c', Repeats step earlier ⟨text, location⟩ found c' ∧
        found.map strip = later.map strip ∧ Laid following c'.rest rest := by
  intro later
  induction later with
  | nil =>
    intro earlier sources text _ hall hearlier hlaid location
    obtain rfl : sources = all := by simpa using hall
    obtain ⟨_, c', hrun, rfl, hfollowing⟩ := hnone hearlier hlaid location
    exact ⟨[], c', .stop hrun, rfl, hfollowing⟩
  | cons a later ih =>
    intro earlier sources text hfollows hall hearlier hlaid location
    rw [List.flatMap_cons, List.append_assoc] at hlaid
    have hafter : ok (later.flatMap tokens ++ following) := by
      cases later with
      | nil => exact hok
      | cons next more =>
        rw [List.flatMap_cons, List.append_assoc]
        exact hitems next _
    obtain ⟨_, middle, hrun, ⟨b, rfl, hstrip⟩, hmore⟩ :=
      hsome hearlier hfollows.1 hafter hlaid location
    obtain ⟨found, c', hrepeats, hfound, hfollowing⟩ :=
      ih (b :: earlier) hfollows.2 (by simpa using hall) (by simp [hstrip, hearlier]) hmore
        middle.location
    exact ⟨b :: found, c', .next hrun hrepeats, by simp [hstrip, hfound], hfollowing⟩

theorem runs_many
    (hsome : ∀ ⦃earlier sources a⦄, earlier.map strip = sources.map strip → Q sources a →
      Accepts (step earlier) (tokens a) ok fun found => ∃ b, found = some b ∧ strip b = strip a)
    {items : List α}
    (hnone : ∀ ⦃earlier text⦄, earlier.map strip = items.reverse.map strip →
      Laid following text rest →
      Runs (step earlier) text fun found middle => found = none ∧ Laid following middle rest)
    (hok : ok following) (hitems : ∀ a after, ok (tokens a ++ after)) (hstep : Progresses step)
    (hfollows : Follows Q [] items) {text : Bytes}
    (hlaid : Laid (items.flatMap tokens ++ following) text rest) :
    Runs (many step) text fun found middle =>
      found.map strip = items.map strip ∧ Laid following middle rest := by
  intro location
  obtain ⟨found, c', hrepeats, hfound, hfollowing⟩ :=
    repeats_of_laid hsome hnone hok hitems items [] hfollows (by simp) rfl hlaid location
  exact ⟨found, c', (many_ok hstep).mpr hrepeats, hfound, hfollowing⟩

variable {item : List α → Reading α} {closing : Punctuator}

/-- The closing byte comes next after all items. -/
def Closes (closing : Punctuator) (tokens : List Token) : Prop :=
  ∃ more, tokens = .punctuator closing :: more

theorem accepts_untilStep {earlier : List α} {a : α} {P : α → Prop}
    (hitem : AcceptsHere (item earlier) (tokens a) ok P)
    (hstart : ∀ a, Avoids [closing] (tokens a)) :
    Accepts (untilStep closing.byte item earlier) (tokens a) ok
      fun found => ∃ b, found = some b ∧ P b := by
  intro following text rest hok hlaid
  obtain ⟨t, ts, htokens, hclosing⟩ := hstart a
  rw [htokens, List.cons_append] at hlaid
  refine (runs_skipBlanks hlaid).bind fun _ settled hstanding => Runs.peek_bind ?_
  obtain ⟨b, hb, hbegins⟩ := hstanding.head?
  rw [hb]
  have hne : b ≠ closing.byte := by
    rw [ne_eq, beginsWith_eq_byte hbegins]
    exact hclosing closing (by simp)
  simp only [if_neg hne]
  rw [← List.cons_append, ← htokens] at hstanding
  exact (hitem hok hstanding).map fun b middle h => ⟨⟨b, rfl, h.1⟩, h.2⟩

theorem runs_untilStep_none {earlier : List α} {more : List Token} {text : Bytes}
    (hlaid : Laid (.punctuator closing :: more) text rest) :
    Runs (untilStep closing.byte item earlier) text fun found middle =>
      found = none ∧ Laid (.punctuator closing :: more) middle rest := by
  refine (runs_skipBlanks hlaid).bind fun _ settled hstanding => Runs.peek_bind ?_
  rw [(head?_eq_byte hstanding closing).mpr rfl]
  simp only [if_true]
  exact .pure ⟨rfl, hstanding.laid⟩

theorem accepts_itemsUntil (closing : Punctuator) (ok : List Token → Prop)
    {R : List α → α → Prop}
    (hgives : ∀ earlier, Gives (item earlier) tokens (R earlier))
    (hitem : ∀ ⦃earlier sources a⦄, earlier.map strip = sources.map strip → Q sources a →
      AcceptsHere (item earlier) (tokens a) ok fun b => strip b = strip a)
    (hstart : ∀ a, Avoids [closing] (tokens a)) (hitems : ∀ a after, ok (tokens a ++ after))
    (hclosing : ∀ more, ok (.punctuator closing :: more)) {items : List α}
    (hfollows : Follows Q [] items) :
    Accepts (itemsUntil closing.byte item) (items.flatMap tokens) (Closes closing)
      fun found => found.map strip = items.map strip := by
  rintro _ text rest ⟨more, rfl⟩ hlaid
  rw [itemsUntil_eq]
  have hne : ∀ a, tokens a ≠ [] := fun a => by
    obtain ⟨t, ts, htokens, -⟩ := hstart a
    simp [htokens]
  exact runs_many (fun _ _ _ hearlier hQ => accepts_untilStep (hitem hearlier hQ) hstart)
    (fun _ _ _ => runs_untilStep_none) (hclosing more) hitems
    (progresses_untilStep closing.byte hgives hne) hfollows hlaid

theorem accepts_parenthesisedStep {earlier : List α} {a : α} {P : α → Prop}
    (hitem : AcceptsHere (item earlier) (tokens a) ok P)
    (hstart : ∀ a, Avoids [.closeParen] (tokens a)) :
    Accepts (parenthesisedStep item earlier) (tokens a) ok
      fun found => ∃ b, found = some b ∧ P b := by
  intro following text rest hok hlaid
  obtain ⟨t, ts, htokens, hclosing⟩ := hstart a
  rw [htokens, List.cons_append] at hlaid
  refine (runs_skipBlanks hlaid).bind fun _ settled hstanding => Runs.peek_bind ?_
  have hne : settled.head? ≠ some (ascii ')') := fun hhead =>
    hclosing .closeParen (by simp) ((head?_eq_byte hstanding .closeParen).mp hhead)
  rw [if_neg (by simp [hne])]
  rw [← List.cons_append, ← htokens] at hstanding
  exact (hitem hok hstanding).map fun b middle h => ⟨⟨b, rfl, h.1⟩, h.2⟩

theorem runs_parenthesisedStep_none {earlier : List α} {more : List Token} {text : Bytes}
    (hearlier : earlier ≠ []) (hlaid : Laid (.punctuator .closeParen :: more) text rest) :
    Runs (parenthesisedStep item earlier) text fun found middle =>
      found = none ∧ Laid (.punctuator .closeParen :: more) middle rest := by
  refine (runs_skipBlanks hlaid).bind fun _ settled hstanding => Runs.peek_bind ?_
  have hclose : settled.head? = some (ascii ')') := (head?_eq_byte hstanding .closeParen).mpr rfl
  rw [if_pos (by simp [hclose, hearlier])]
  exact .pure ⟨rfl, hstanding.laid⟩

theorem accepts_parenthesised (ok : List Token → Prop) {R : List α → α → Prop}
    (hgives : ∀ earlier, Gives (item earlier) tokens (R earlier))
    (hitem : ∀ ⦃earlier sources a⦄, earlier.map strip = sources.map strip → Q sources a →
      AcceptsHere (item earlier) (tokens a) ok fun b => strip b = strip a)
    (hstart : ∀ a, Avoids [.closeParen] (tokens a)) (hitems : ∀ a after, ok (tokens a ++ after))
    (hclosing : ∀ more, ok (.punctuator .closeParen :: more)) {items : List α}
    (hitemsNe : items ≠ [])
    (hfollows : Follows Q [] items) :
    Accepts (parenthesised item) (parenthesisedTokens tokens items) Anything
      fun found => found.map strip = items.map strip := by
  intro following text rest _ hlaid
  have htokens : parenthesisedTokens tokens items =
      .punctuator .openParen :: items.flatMap tokens ++ [.punctuator .closeParen] := by
    cases items with
    | nil => exact absurd rfl hitemsNe
    | cons first more => rfl
  rw [htokens, List.append_assoc, List.cons_append] at hlaid
  have hne : ∀ a, tokens a ≠ [] := fun a => by
    obtain ⟨t, ts, htokens, -⟩ := hstart a
    simp [htokens]
  have hmany : ∀ {text}, Laid (items.flatMap tokens ++ (.punctuator .closeParen :: following)) text
      rest → Runs (many (parenthesisedStep item)) text fun found middle =>
        found.map strip = items.map strip ∧
          Laid (.punctuator .closeParen :: following) middle rest :=
    runs_many (fun _ _ _ hearlier hQ => accepts_parenthesisedStep (hitem hearlier hQ) hstart)
      (fun earlier _ hearlier => runs_parenthesisedStep_none fun hnil => by
        rw [hnil] at hearlier
        simp [hitemsNe] at hearlier)
      (hclosing following) hitems (progresses_parenthesisedStep hgives hne) hfollows
  rw [parenthesised_eq]
  refine (runs_expect .openParen hlaid).bind fun _ _ hopen => ?_
  refine (hmany hopen).bind fun found _ hfound => ?_
  exact (runs_expect .closeParen hfound.2).bind fun _ _ hclose => .pure ⟨hfound.1, hclose⟩

end Loops

/-! ## §4 Literals -/

theorem accepts_entry {value : Reading α} {tokens : α → List Token} {strip : α → α} {P : α → Prop}
    (duplicate : Bytes → SyntaxProblem)
    (hvalue : ∀ v, P v → Accepts value (tokens v) Anything fun found => strip found = strip v)
    {earlier sources : List (Entry α)} {e : Entry α}
    (hearlier : earlier.map (Entry.unplacedBy strip) = sources.map (Entry.unplacedBy strip))
    (hnamed : Named (·.name) (fun e => P e.value) sources e) :
    Accepts (entry duplicate value earlier) (Entry.tokens tokens e) Anything
      fun found => found.unplacedBy strip = e.unplacedBy strip := by
  obtain ⟨-, hP, hnew⟩ := hnamed
  intro following text rest hok hlaid
  refine Runs.position_bind fun location => (runs_name hlaid).bind_eq ?_
  intro _ hlaid
  have hnames : earlier.map (·.name) = sources.map (·.name) :=
    map_eq_of_unplaced Entry.name hearlier fun _ => rfl
  rw [any_eq_false_of_unplaced hnames hnew, if_neg (by simp)]
  refine (runs_expect .colon hlaid).bind fun _ _ hlaid => ?_
  refine (hvalue e.value hP hok hlaid).bind fun v _ hv => .pure ⟨?_, hv.2⟩
  exact congrArg (fun value => Entry.mk e.name value Location.start) hv.1

/-- What the first byte of a literal hands over to. -/
def literalFrom (references : References) (inner : Option (Reading Literal)) (location : Location)
    (b : UInt8) : Reading Literal :=
  if b = ascii '$' then reference references location
  else if b = ascii '"' then string
  else if b = ascii '-' || isDigit b then number
  else if b = ascii '[' then nested inner (listLiteral location)
  else if b = ascii '{' then nested inner (objectLiteral location)
  else if isNameStart b then wordOf location <$> name
  else fail (.expectedValue (some b))

theorem literalWith_eq (references : References) (inner : Option (Reading Literal)) :
    literalWith references inner = (do
      skipBlanks
      let location ← position
      match ← peek with
      | none => fail (.expectedValue none)
      | some b => literalFrom references inner location b) := rfl

section Literals

variable {references : References} {inner : Option (Reading Literal)} {location : Location}

theorem literalFrom_number {b : UInt8} (h : b = ascii '-' ∨ isDigit b = true) :
    literalFrom references inner location b = number := by
  have hall : ∀ b, isDigit b = true → b ≠ ascii '$' ∧ b ≠ ascii '"' :=
    forall_byte (by decide +kernel)
  have hne : b ≠ ascii '$' ∧ b ≠ ascii '"' := by
    rcases h with rfl | h
    · decide
    · exact hall b h
  rw [literalFrom, if_neg hne.1, if_neg hne.2, if_pos (by simpa using h)]

theorem literalFrom_name {b : UInt8} (h : isNameStart b = true) :
    literalFrom references inner location b = wordOf location <$> name := by
  have hall : ∀ b, isNameStart b = true → b ≠ ascii '$' ∧ b ≠ ascii '"' ∧ b ≠ ascii '-' ∧
      isDigit b = false ∧ b ≠ ascii '[' ∧ b ≠ ascii '{' := forall_byte (by decide +kernel)
  obtain ⟨hdollar, hquote, hminus, hdigit, hbracket, hbrace⟩ := hall b h
  rw [literalFrom, if_neg hdollar, if_neg hquote, if_neg (by simp [hminus, hdigit]),
    if_neg hbracket, if_neg hbrace, if_pos h]

theorem runs_literalWith {t : Token} {ts : List Token} {text rest : Bytes}
    {goal : Literal → Bytes → Prop} (hlaid : Laid (t :: ts) text rest)
    (h : ∀ location b settled, t.BeginsWith b → Standing (t :: ts) settled rest →
      Runs (literalFrom references inner location b) settled goal) :
    Runs (literalWith references inner) text goal := by
  rw [literalWith_eq]
  refine (runs_skipBlanks hlaid).bind fun _ settled hstanding => ?_
  refine Runs.position_bind fun location => Runs.peek_bind ?_
  obtain ⟨b, hb, hbegins⟩ := hstanding.head?
  rw [hb]
  exact h location b settled hbegins hstanding

/-- A literal that is one token is taken as the word of that token. -/
theorem accepts_token {t : Token} {l : Literal} (hl : l.tokens = [t])
    (hword : ∀ location b word middle, t.BeginsWith b → t.Spells word → t.StopsAt middle →
      Takes (literalFrom references inner location b) (word ++ middle)
        (fun found => found.unplaced = l.unplaced) middle) :
    Accepts (literalWith references inner) l.tokens Anything (·.unplaced = l.unplaced) := by
  intro following text rest _ hlaid
  rw [hl] at hlaid
  apply runs_literalWith hlaid
  intro location b _ hbegins hstanding
  obtain ⟨word, middle, rfl, hspells, hstop, hmore⟩ := hstanding
  refine (hword location b word middle hbegins hspells hstop).runs ?_
  intro found hfound
  exact ⟨hfound, hmore⟩

theorem accepts_word {word : Bytes} {l : Literal} (hl : l.tokens = [.name word])
    (hword : ∀ location, (wordOf location word).unplaced = l.unplaced) :
    Accepts (literalWith references inner) l.tokens Anything (·.unplaced = l.unplaced) := by
  intro following text rest _ hlaid
  rw [hl] at hlaid
  refine runs_literalWith hlaid fun location b settled hbegins hstanding => ?_
  rw [literalFrom_name hbegins]
  refine (runs_name hstanding.laid).map ?_
  intro _ middle h
  obtain ⟨rfl, hmore⟩ := h
  exact ⟨hword location, hmore⟩

theorem accepts_listLiteral {item : Reading Literal} {budget : Nat}
    (hgives : Gives item Literal.tokens (Fits references budget))
    (hitem : ∀ l, Fits references budget l →
      Accepts item l.tokens Anything (·.unplaced = l.unplaced))
    {written : Location} {items : List Literal} (hitems : ∀ i ∈ items, Fits references budget i) :
    Accepts (listLiteral location item) (Literal.list written items).tokens Anything
      (·.unplaced = (Literal.list written items).unplaced) := by
  intro following text rest _ hlaid
  have hstart (l : Literal) : Avoids [.closeBracket] l.tokens := by
    cases l <;> exact avoids_cons (by simp)
  have hall := accepts_itemsUntil .closeBracket Anything
    (Q := fun _ => Fits references budget) (fun _ => hgives)
    (fun _ _ l _ hl => (hitem l hl).here) hstart (fun _ _ => trivial) (fun _ => trivial)
    (follows_const.mpr hitems)
  rw [Literal.tokens_list, List.append_assoc, List.cons_append] at hlaid
  refine (runs_expect .openBracket hlaid).bind fun _ _ hopen => ?_
  refine (hall ⟨following, rfl⟩ hopen).bind fun found _ hfound => ?_
  refine (runs_expect .closeBracket hfound.2).bind fun _ _ hclose => .pure ⟨?_, hclose⟩
  simp only [Literal.unplaced_list, hfound.1]

theorem accepts_objectLiteral {value : Reading Literal} {budget : Nat}
    (hgives : Gives value Literal.tokens (Fits references budget))
    (hvalue : ∀ l, Fits references budget l →
      Accepts value l.tokens Anything (·.unplaced = l.unplaced))
    {written : Location} {fields : List (Entry Literal)}
    (hnames : ProperNames (fields.map (·.name)))
    (hfields : ∀ f ∈ fields, Fits references budget f.value) :
    Accepts (objectLiteral location value) (Literal.object written fields).tokens Anything
      (·.unplaced = (Literal.object written fields).unplaced) := by
  intro following text rest _ hlaid
  have hall := accepts_itemsUntil .closeBrace Anything
    (gives_entry .duplicateInputField hgives)
    (fun _ _ _ hearlier hnamed => (accepts_entry _ hvalue hearlier hnamed).here)
    (fun _ => avoids_cons (by simp)) (fun _ _ => trivial) (fun _ => trivial)
    (follows_named.mpr ⟨hnames, hfields⟩)
  rw [Literal.tokens_object, List.append_assoc, List.cons_append] at hlaid
  refine (runs_expect .openBrace hlaid).bind fun _ _ hopen => ?_
  refine (hall ⟨following, rfl⟩ hopen).bind fun found _ hfound => ?_
  refine (runs_expect .closeBrace hfound.2).bind fun _ _ hclose => .pure ⟨?_, hclose⟩
  simp only [Literal.unplaced_object, hfound.1]

theorem wordOf_enum {word : Bytes} (h : word ∉ reservedWords) :
    wordOf location word = .enum location word := by
  simp only [reservedWords, List.mem_cons, List.not_mem_nil, or_false, not_or] at h
  simp [wordOf, h]

theorem accepts_reference {variableName : Bytes} {text rest : Bytes}
    {following : List Token} (hallowed : references = .allowed)
    (hstanding : Standing (.punctuator .dollar :: .name variableName :: following) text rest) :
    Runs (reference references location) text fun found middle =>
      found.unplaced = .reference .start variableName ∧ Laid following middle rest := by
  subst hallowed
  refine (runs_advance hstanding).bind fun _ _ hdollar => (runs_name hdollar).bind_eq ?_
  intro _ hname
  exact .pure ⟨rfl, hname⟩

theorem accepts_literalWith {budget : Nat} (hinner : ∀ less, budget = less + 1 →
      inner = some (literal references less) ∧ ∀ l, Fits references less l →
        Accepts (literal references less) l.tokens Anything (·.unplaced = l.unplaced))
    {l : Literal} (hfits : Fits references budget l) :
    Accepts (literalWith references inner) l.tokens Anything (·.unplaced = l.unplaced) := by
  cases l with
  | null _ => exact accepts_word rfl fun _ => rfl
  | boolean _ b => cases b <;> exact accepts_word rfl fun _ => rfl
  | enum written word =>
    have hproper : isName word = true ∧ word ∉ reservedWords :=
      hfits.wellFormed (.enum written word) (by simp [Literal.nodes])
    refine accepts_word rfl fun location => ?_
    rw [wordOf_enum hproper.2]
    rfl
  | int _ n =>
    apply accepts_token rfl
    intro location b word middle hbegins hword hstop
    rw [literalFrom_number hbegins]
    apply (takes_number_int hword hstop).imp
    intro found hfound
    obtain ⟨_, rfl⟩ := hfound
    rfl
  | float _ x =>
    apply accepts_token rfl
    intro location b word middle hbegins hword hstop
    rw [literalFrom_number hbegins]
    apply (takes_number_float hword hstop).imp
    intro found hfound
    obtain ⟨_, rfl⟩ := hfound
    rfl
  | string _ characters =>
    apply accepts_token rfl
    intro location b word middle hbegins hword hstop
    obtain rfl : b = ascii '"' := hbegins
    apply (takes_string middle hword).imp
    intro found hfound
    obtain ⟨_, rfl⟩ := hfound
    rfl
  | reference written variableName =>
    refine fun following text rest _ hlaid => runs_literalWith hlaid ?_
    intro location b settled hbegins hstanding
    obtain rfl : b = ascii '$' := hbegins
    refine accepts_reference ?_ hstanding
    cases hreferences : references with
    | allowed => rfl
    | refused =>
      have hconstant := hfits.constant hreferences (.reference written variableName)
        (by simp [Literal.nodes])
      cases hconstant
  | list written items =>
    cases budget with
    | zero => exact absurd hfits.depth (by simp [Literal.depth])
    | succ less =>
      obtain ⟨rfl, haccepts⟩ := hinner less rfl
      refine fun following text rest hok hlaid => runs_literalWith hlaid ?_
      intro location b settled hbegins hstanding
      obtain rfl : b = ascii '[' := hbegins
      exact accepts_listLiteral (gives_literal references less) haccepts (fits_list.mp hfits) hok
        hstanding.laid
  | object written fields =>
    cases budget with
    | zero => exact absurd hfits.depth (by simp [Literal.depth])
    | succ less =>
      obtain ⟨rfl, haccepts⟩ := hinner less rfl
      refine fun following text rest hok hlaid => runs_literalWith hlaid ?_
      intro location b settled hbegins hstanding
      obtain rfl : b = ascii '{' := hbegins
      obtain ⟨hnames, hfields⟩ := fits_object.mp hfits
      exact accepts_objectLiteral (gives_literal references less) haccepts hnames hfields hok
        hstanding.laid

end Literals

/-- Every layout of a literal that fits the budget is read. -/
theorem accepts_literal (references : References) (budget : Nat) : ∀ l, Fits references budget l →
    Accepts (literal references budget) l.tokens Anything (·.unplaced = l.unplaced) := by
  induction budget with
  | zero => exact fun l => accepts_literalWith (by simp)
  | succ budget ih =>
    refine fun l => accepts_literalWith ?_
    intro less hless
    obtain rfl : budget = less := by omega
    exact ⟨rfl, ih⟩

end GraphQL.Reading
