/-
GraphQL.Proofs.Reading.DeepLiteral — a literal that nests too deeply is refused
for that reason.

  §1 Refusals  — readings that refuse a text because it nests too deeply.
  §2 Loops     — the first item that is refused.
  §3 Literals  — by induction on the nesting budget.

What stands before the first part that is too deep is within the limit, so it is
read as it was written. That part itself is refused, whatever follows.
-/
import GraphQL.Proofs.Reading.CompleteLiteral

namespace GraphQL.Reading

variable {α β γ : Type}

/-! ## §1 Refusals -/

/-- Wherever `text` stands, `r` refuses it because it nests too deeply. -/
def Refuses (r : Reading α) (text : Bytes) : Prop :=
  ∀ location, ∃ place, r.run ⟨text, location⟩ = .error ⟨.nestsTooDeeply, place⟩

namespace Refuses

theorem fail (text : Bytes) : Refuses (fail .nestsTooDeeply : Reading α) text :=
  fun location => ⟨location, rfl⟩

theorem bind {r : Reading α} {f : α → Reading β} {text : Bytes} (hr : Refuses r text) :
    Refuses (r >>= f) text := by
  intro location
  obtain ⟨place, hrun⟩ := hr location
  exact ⟨place, by rw [bind_run, hrun]⟩

theorem map {f : α → β} {r : Reading α} {text : Bytes} (hr : Refuses r text) :
    Refuses (f <$> r) text := by
  rw [map_eq_pure_bind]
  exact hr.bind

end Refuses

/-- What is read first succeeds, and what is read after it refuses the rest. -/
theorem Runs.refuses {r : Reading α} {f : α → Reading β} {text : Bytes} {post : α → Bytes → Prop}
    (hr : Runs r text post) (hf : ∀ a middle, post a middle → Refuses (f a) middle) :
    Refuses (r >>= f) text := by
  intro location
  obtain ⟨a, middle, hrun, ha⟩ := hr location
  obtain ⟨place, hplace⟩ := hf a middle.rest ha middle.location
  exact ⟨place, by rw [bind_run, hrun]; exact hplace⟩

theorem Runs.refuses_eq {r : Reading α} {f : α → Reading β} {text : Bytes} {a : α}
    {post : Bytes → Prop} (hr : Runs r text fun found middle => found = a ∧ post middle)
    (hf : ∀ middle, post middle → Refuses (f a) middle) : Refuses (r >>= f) text := by
  apply hr.refuses
  rintro _ middle ⟨rfl, hpost⟩
  exact hf middle hpost

theorem Refuses.peek_bind {f : Option UInt8 → Reading β} {text : Bytes}
    (h : Refuses (f text.head?) text) : Refuses (peek >>= f) text := by
  intro location
  obtain ⟨place, hplace⟩ := h location
  exact ⟨place, by rw [bind_run]; exact hplace⟩

theorem Refuses.position_bind {f : Location → Reading β} {text : Bytes}
    (h : ∀ location, Refuses (f location) text) : Refuses (position >>= f) text := by
  intro location
  obtain ⟨place, hplace⟩ := h location location
  exact ⟨place, by rw [bind_run]; exact hplace⟩

/-- Wherever the tokens are laid out, `r` refuses them, whatever follows. -/
def Rejects (r : Reading α) (tokens : List Token) : Prop :=
  ∀ ⦃following text rest⦄, Laid (tokens ++ following) text rest → Refuses r text

/-- `Rejects` for a reading that begins at a word. -/
def RejectsHere (r : Reading α) (tokens : List Token) : Prop :=
  ∀ ⦃following text rest⦄, Standing (tokens ++ following) text rest → Refuses r text

theorem Rejects.here {r : Reading α} {tokens : List Token} (h : Rejects r tokens) :
    RejectsHere r tokens := fun _ _ _ hstanding => h hstanding.laid

/-! ## §2 Loops -/

section Loops

variable {step : List α → Reading (Option α)} {tokens : γ → List Token} {strip : α → β}
  {mark : γ → β} {Q : List γ → γ → Prop} {deep : γ → Prop} {ok : List Token → Prop}

/-- A step that takes every item that is not too deep, and refuses the others, refuses
items of which one is too deep. -/
theorem refuses_manyFrom
    (htakes : ∀ ⦃earlier sources a⦄, earlier.map strip = sources.map mark → Q sources a →
      ¬ deep a → Accepts (step earlier) (tokens a) ok fun found => ∃ b, found = some b ∧
        strip b = mark a)
    (hrejects : ∀ ⦃earlier sources a⦄, earlier.map strip = sources.map mark → Q sources a →
      deep a → Rejects (step earlier) (tokens a))
    (hok : ∀ a after, ok (tokens a ++ after)) (hstep : Progresses step) {following : List Token}
    {rest : Bytes} :
    ∀ (later : List γ) {sources : List γ} {earlier : List α} {text bound : Bytes},
      Follows Q sources later → earlier.map strip = sources.map mark → (∃ a ∈ later, deep a) →
      Laid (later.flatMap tokens ++ following) text rest → text.length < bound.length →
      Refuses (manyFrom step bound earlier) text := by
  intro later
  induction later with
  | nil =>
    rintro sources earlier text bound _ _ ⟨a, ha, _⟩
    cases ha
  | cons a later ih =>
    intro sources earlier text bound hfollows hearlier hdeep hlaid hbound
    obtain ⟨_, bound, rfl⟩ := List.exists_cons_of_length_pos (Nat.zero_lt_of_lt hbound)
    rw [List.flatMap_cons, List.append_assoc] at hlaid
    by_cases ha : deep a
    · exact (hrejects hearlier hfollows.1 ha hlaid).bind
    · -- The item that is too deep comes later, so there is a next item.
      have hlater : ∃ b ∈ later, deep b := by
        obtain ⟨b, hb, hbdeep⟩ := hdeep
        rcases List.mem_cons.mp hb with rfl | hb
        · exact absurd hbdeep ha
        · exact ⟨b, hb, hbdeep⟩
      have hafter : ok (later.flatMap tokens ++ following) := by
        cases later with
        | nil =>
          obtain ⟨b, hb, _⟩ := hlater
          cases hb
        | cons next more =>
          rw [List.flatMap_cons, List.append_assoc]
          exact hok next _
      intro location
      obtain ⟨_, middle, hrun, ⟨b, rfl, hb⟩, hmore⟩ :=
        htakes hearlier hfollows.1 ha hafter hlaid location
      have hlength : middle.rest.length < bound.length :=
        Nat.lt_of_lt_of_le (hstep _ _ _ _ hrun) (Nat.le_of_lt_succ hbound)
      have hread : (b :: earlier).map strip = (a :: sources).map mark := by simp [hearlier, hb]
      obtain ⟨place, hplace⟩ := ih hfollows.2 hread hlater hmore hlength middle.location
      exact ⟨place, by rw [manyFrom, bind_run, hrun]; exact hplace⟩

theorem refuses_many
    (htakes : ∀ ⦃earlier sources a⦄, earlier.map strip = sources.map mark → Q sources a →
      ¬ deep a → Accepts (step earlier) (tokens a) ok fun found => ∃ b, found = some b ∧
        strip b = mark a)
    (hrejects : ∀ ⦃earlier sources a⦄, earlier.map strip = sources.map mark → Q sources a →
      deep a → Rejects (step earlier) (tokens a))
    (hok : ∀ a after, ok (tokens a ++ after)) (hstep : Progresses step) {items : List γ}
    (hfollows : Follows Q [] items) (hdeep : ∃ a ∈ items, deep a) {following : List Token}
    {text rest : Bytes} (hlaid : Laid (items.flatMap tokens ++ following) text rest) :
    Refuses (many step) text := by
  have hget : Runs (get : Reading Cursor) text fun found middle =>
      found.rest = text ∧ middle = text := fun location => ⟨⟨text, location⟩, _, rfl, rfl, rfl⟩
  refine hget.refuses ?_
  rintro cursor _ ⟨hrest, rfl⟩
  rw [hrest]
  exact refuses_manyFrom htakes hrejects hok hstep items hfollows rfl hdeep hlaid (by simp)

end Loops

section Items

variable {item : List α → Reading α} {tokens : α → List Token} {strip : α → β}
  {Q : List α → α → Prop}

theorem rejects_untilStep {closing : Punctuator} {earlier : List α} {a : α}
    (hitem : RejectsHere (item earlier) (tokens a)) (hstart : ∀ a, Avoids [closing] (tokens a)) :
    Rejects (untilStep closing.byte item earlier) (tokens a) := by
  intro following text rest hlaid
  obtain ⟨t, ts, htokens, hclosing⟩ := hstart a
  rw [htokens, List.cons_append] at hlaid
  refine (runs_skipBlanks hlaid).refuses fun _ settled hstanding => Refuses.peek_bind ?_
  obtain ⟨b, hb, hbegins⟩ := hstanding.head?
  rw [hb]
  have hne : b ≠ closing.byte := by
    rw [ne_eq, beginsWith_eq_byte hbegins]
    exact hclosing closing (by simp)
  simp only [if_neg hne]
  rw [← List.cons_append, ← htokens] at hstanding
  exact (hitem hstanding).map

theorem rejects_itemsUntil (closing : Punctuator) (ok : List Token → Prop) (deep : α → Prop)
    {R : List α → α → Prop} (hgives : ∀ earlier, Gives (item earlier) tokens (R earlier))
    (htakes : ∀ ⦃earlier sources a⦄, earlier.map strip = sources.map strip → Q sources a →
      ¬ deep a → AcceptsHere (item earlier) (tokens a) ok fun b => strip b = strip a)
    (hrejects : ∀ ⦃earlier sources a⦄, earlier.map strip = sources.map strip → Q sources a →
      deep a → RejectsHere (item earlier) (tokens a))
    (hstart : ∀ a, Avoids [closing] (tokens a)) (hok : ∀ a after, ok (tokens a ++ after))
    {items : List α} (hfollows : Follows Q [] items) (hdeep : ∃ a ∈ items, deep a) :
    Rejects (itemsUntil closing.byte item) (items.flatMap tokens) := by
  intro following text rest hlaid
  have hne : ∀ a, tokens a ≠ [] := fun a => by
    obtain ⟨t, ts, htokens, -⟩ := hstart a
    simp [htokens]
  rw [itemsUntil_eq]
  exact refuses_many
    (fun _ _ _ hearlier hQ ha => accepts_untilStep (htakes hearlier hQ ha) hstart)
    (fun _ _ _ hearlier hQ ha => rejects_untilStep (hrejects hearlier hQ ha) hstart)
    hok (progresses_untilStep closing.byte hgives hne) hfollows hdeep hlaid

theorem rejects_parenthesisedStep {earlier : List α} {a : α}
    (hitem : RejectsHere (item earlier) (tokens a))
    (hstart : ∀ a, Avoids [.closeParen] (tokens a)) :
    Rejects (parenthesisedStep item earlier) (tokens a) := by
  intro following text rest hlaid
  obtain ⟨t, ts, htokens, hclosing⟩ := hstart a
  rw [htokens, List.cons_append] at hlaid
  refine (runs_skipBlanks hlaid).refuses fun _ settled hstanding => Refuses.peek_bind ?_
  have hne : settled.head? ≠ some (ascii ')') := fun hhead =>
    hclosing .closeParen (by simp) ((head?_eq_byte hstanding .closeParen).mp hhead)
  rw [if_neg (by simp [hne])]
  rw [← List.cons_append, ← htokens] at hstanding
  exact (hitem hstanding).map

theorem rejects_parenthesised (ok : List Token → Prop) (deep : α → Prop) {R : List α → α → Prop}
    (hgives : ∀ earlier, Gives (item earlier) tokens (R earlier))
    (htakes : ∀ ⦃earlier sources a⦄, earlier.map strip = sources.map strip → Q sources a →
      ¬ deep a → AcceptsHere (item earlier) (tokens a) ok fun b => strip b = strip a)
    (hrejects : ∀ ⦃earlier sources a⦄, earlier.map strip = sources.map strip → Q sources a →
      deep a → RejectsHere (item earlier) (tokens a))
    (hstart : ∀ a, Avoids [.closeParen] (tokens a)) (hok : ∀ a after, ok (tokens a ++ after))
    {items : List α} (hfollows : Follows Q [] items) (hdeep : ∃ a ∈ items, deep a) :
    Rejects (parenthesised item) (parenthesisedTokens tokens items) := by
  intro following text rest hlaid
  have hne : ∀ a, tokens a ≠ [] := fun a => by
    obtain ⟨t, ts, htokens, -⟩ := hstart a
    simp [htokens]
  have htokens : parenthesisedTokens tokens items =
      .punctuator .openParen :: items.flatMap tokens ++ [.punctuator .closeParen] := by
    cases items with
    | nil =>
      obtain ⟨a, ha, _⟩ := hdeep
      cases ha
    | cons first more => rfl
  rw [htokens, List.append_assoc, List.cons_append] at hlaid
  rw [parenthesised_eq]
  refine (runs_expect .openParen hlaid).refuses fun _ middle hopen => Refuses.bind ?_
  exact refuses_many
    (fun _ _ _ hearlier hQ ha => accepts_parenthesisedStep (htakes hearlier hQ ha) hstart)
    (fun _ _ _ hearlier hQ ha => rejects_parenthesisedStep (hrejects hearlier hQ ha) hstart)
    hok (progresses_parenthesisedStep hgives hne) hfollows hdeep hopen

end Items

/-! ## §3 Literals -/

/-- What is asked of a literal, its nesting apart. -/
def Sound (references : References) (l : Literal) : Prop :=
  l.WellFormed ∧ (references = .refused → l.Constant)

theorem Sound.fits {references : References} {budget : Nat} {l : Literal}
    (h : Sound references l) (hdepth : ¬ budget < l.depth) : Fits references budget l :=
  ⟨h.1, Nat.le_of_not_lt hdepth, h.2⟩

theorem sound_list {references : References} {location : Location} {items : List Literal}
    (h : Sound references (.list location items)) : ∀ item ∈ items, Sound references item :=
  fun item hitem => ⟨(Literal.forall_nodes_list.mp h.1).2 item hitem,
    fun hrefused => (Literal.forall_nodes_list.mp (h.2 hrefused)).2 item hitem⟩

theorem sound_object {references : References} {location : Location}
    {fields : List (Entry Literal)} (h : Sound references (.object location fields)) :
    ProperNames (fields.map (·.name)) ∧ ∀ field ∈ fields, Sound references field.value := by
  obtain ⟨hnames, hfields⟩ := Literal.forall_nodes_object.mp h.1
  exact ⟨hnames, fun field hfield => ⟨hfields field hfield,
    fun hrefused => (Literal.forall_nodes_object.mp (h.2 hrefused)).2 field hfield⟩⟩

theorem Named.imp {name : α → Bytes} {P P' : α → Prop} {earlier : List α} {a : α}
    (h : Named name P earlier a) (himp : P a → P' a) : Named name P' earlier a :=
  ⟨h.1, himp h.2.1, h.2.2⟩

theorem rejects_entry {value : Reading α} {tokens : α → List Token} {strip : α → α}
    {P : Entry α → Prop} (duplicate : Bytes → SyntaxProblem) {earlier sources : List (Entry α)}
    {e : Entry α}
    (hvalue : Rejects value (tokens e.value))
    (hearlier : earlier.map (Entry.unplacedBy strip) = sources.map (Entry.unplacedBy strip))
    (hnamed : Named (fun entry : Entry α => entry.name) P sources e) :
    Rejects (entry duplicate value earlier) (Entry.tokens tokens e) := by
  obtain ⟨-, -, hnew⟩ := hnamed
  intro following text rest hlaid
  have hnames : earlier.map (·.name) = sources.map (·.name) :=
    map_eq_of_unplaced Entry.name hearlier fun _ => rfl
  refine Refuses.position_bind fun location => (runs_name hlaid).refuses_eq ?_
  intro _ hlaid
  rw [any_eq_false_of_unplaced hnames hnew, if_neg (by simp)]
  refine (runs_expect .colon hlaid).refuses fun _ _ hlaid => ?_
  exact (hvalue hlaid).bind

section Literals

variable {references : References} {inner : Option (Reading Literal)}

theorem rejects_literalWith {t : Token} {ts : List Token}
    (h : ∀ {following text rest} location b, t.BeginsWith b →
      Standing (t :: (ts ++ following)) text rest →
      Refuses (literalFrom references inner location b) text) :
    Rejects (literalWith references inner) (t :: ts) := by
  intro following text rest hlaid
  rw [literalWith_eq]
  refine (runs_skipBlanks hlaid).refuses fun _ settled hstanding => ?_
  refine Refuses.position_bind fun location => Refuses.peek_bind ?_
  obtain ⟨b, hb, hbegins⟩ := hstanding.head?
  rw [hb]
  exact h location b hbegins hstanding

theorem rejects_listLiteral {budget : Nat} {item : Reading Literal} {location : Location}
    (written : Location) {items : List Literal}
    (hgives : Gives item Literal.tokens (Fits references budget))
    (htakes : ∀ l, Fits references budget l →
      Accepts item l.tokens Anything (·.unplaced = l.unplaced))
    (hrejects : ∀ l, Sound references l → budget < l.depth → Rejects item l.tokens)
    (hsound : ∀ l ∈ items, Sound references l) (hdeep : ∃ l ∈ items, budget < l.depth) :
    Rejects (listLiteral location item) (Literal.list written items).tokens := by
  intro following text rest hlaid
  have hstart (l : Literal) : Avoids [.closeBracket] l.tokens := by
    cases l <;> exact avoids_cons (by simp)
  have hall := rejects_itemsUntil .closeBracket Anything (fun l => budget < l.depth)
    (Q := fun _ => Sound references) (fun _ => hgives)
    (fun _ _ l _ hl hdepth => (htakes l (hl.fits hdepth)).here)
    (fun _ _ l _ hl hdepth => (hrejects l hl hdepth).here) hstart (fun _ _ => trivial)
    (follows_const.mpr hsound) hdeep
  rw [Literal.tokens_list, List.append_assoc, List.cons_append] at hlaid
  refine (runs_expect .openBracket hlaid).refuses fun _ _ hopen => ?_
  exact (hall hopen).bind

theorem rejects_objectLiteral {budget : Nat} {value : Reading Literal} {location : Location}
    (written : Location) {fields : List (Entry Literal)}
    (hgives : Gives value Literal.tokens (Fits references budget))
    (htakes : ∀ l, Fits references budget l →
      Accepts value l.tokens Anything (·.unplaced = l.unplaced))
    (hrejects : ∀ l, Sound references l → budget < l.depth → Rejects value l.tokens)
    (hnames : ProperNames (fields.map (·.name)))
    (hsound : ∀ field ∈ fields, Sound references field.value)
    (hdeep : ∃ field ∈ fields, budget < field.value.depth) :
    Rejects (objectLiteral location value) (Literal.object written fields).tokens := by
  intro following text rest hlaid
  have hall := rejects_itemsUntil .closeBrace Anything (fun field => budget < field.value.depth)
    (gives_entry .duplicateInputField hgives)
    (fun _ _ field hearlier hnamed hdepth => (accepts_entry _ htakes hearlier
      (hnamed.imp fun h : Sound references field.value => h.fits hdepth)).here)
    (fun _ _ field hearlier hnamed hdepth =>
      (rejects_entry _ (hrejects field.value hnamed.2.1 hdepth) hearlier hnamed).here)
    (fun _ => avoids_cons (by simp)) (fun _ _ => trivial)
    (follows_named.mpr ⟨hnames, hsound⟩) hdeep
  rw [Literal.tokens_object, List.append_assoc, List.cons_append] at hlaid
  refine (runs_expect .openBrace hlaid).refuses fun _ _ hopen => ?_
  exact (hall hopen).bind

end Literals

theorem exists_deeper_item {location : Location} {items : List Literal} {budget : Nat}
    (h : budget + 1 < (Literal.list location items).depth) : ∃ l ∈ items, budget < l.depth := by
  by_contra hnone
  simp only [not_exists, not_and, Nat.not_lt] at hnone
  have hdepth : (Literal.list location items).depth ≤ budget + 1 :=
    Literal.depth_list_le.mpr hnone
  omega

theorem exists_deeper_field {location : Location} {fields : List (Entry Literal)} {budget : Nat}
    (h : budget + 1 < (Literal.object location fields).depth) :
    ∃ field ∈ fields, budget < field.value.depth := by
  by_contra hnone
  simp only [not_exists, not_and, Nat.not_lt] at hnone
  have hdepth : (Literal.object location fields).depth ≤ budget + 1 :=
    Literal.depth_object_le.mpr hnone
  omega

theorem rejects_literal (references : References) (budget : Nat) : ∀ l, Sound references l →
    budget < l.depth → Rejects (literal references budget) l.tokens := by
  induction budget with
  | zero =>
    intro l _ hdeep
    cases l with
    | list written items =>
      refine rejects_literalWith fun location b hbegins _ => ?_
      obtain rfl : b = ascii '[' := hbegins
      exact .fail _
    | object written fields =>
      refine rejects_literalWith fun location b hbegins _ => ?_
      obtain rfl : b = ascii '{' := hbegins
      exact .fail _
    | _ => exact absurd hdeep (by simp [Literal.depth])
  | succ budget ih =>
    intro l hsound hdeep
    cases l with
    | list written items =>
      refine rejects_literalWith fun location b hbegins hstanding => ?_
      obtain rfl : b = ascii '[' := hbegins
      exact rejects_listLiteral written (gives_literal references budget)
        (accepts_literal references budget) ih (sound_list hsound) (exists_deeper_item hdeep)
        hstanding.laid
    | object written fields =>
      refine rejects_literalWith fun location b hbegins hstanding => ?_
      obtain rfl : b = ascii '{' := hbegins
      obtain ⟨hnames, hfields⟩ := sound_object hsound
      exact rejects_objectLiteral written (gives_literal references budget)
        (accepts_literal references budget) ih hnames hfields (exists_deeper_field hdeep)
        hstanding.laid
    | _ => exact absurd hdeep (by simp [Literal.depth])

end GraphQL.Reading
