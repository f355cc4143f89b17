/-
GraphQL.Proofs.Reading.SoundLiteral — literals that are read were written, and
are well formed.

  §1 Given values  — readings whose values are spelled by the text they take.
  §2 Loops         — items one after another, each with those before it.
  §3 Literals      — by induction on the nesting budget.

Each function has one lemma: a value that it gives was written as the tokens of
that value, and satisfies what is asked of such values. The bound on nesting
comes from the recursion.
-/
import GraphQL.Proofs.Reading.Quoted
import GraphQL.Proofs.Document.WellFormed

namespace GraphQL.Reading

variable {α : Type}

/-! ## §1 Given values -/

/-- A value that `r` gives was written as its tokens, and satisfies `P`. -/
def Gives (r : Reading α) (tokens : α → List Token) (P : α → Prop) : Prop :=
  ∀ ⦃c a c'⦄, r.run c = .ok (a, c') → Read (tokens a) c.rest c'.rest ∧ P a

/-! ## §2 Loops -/

/-- Every item satisfies `Q` together with the items before it, latest first. -/
def Follows (Q : List α → α → Prop) : List α → List α → Prop
  | _, [] => True
  | earlier, a :: later => Q earlier a ∧ Follows Q (a :: earlier) later

theorem Follows.forall {Q : List α → α → Prop} {P : α → Prop}
    (hQ : ∀ earlier a, Q earlier a → P a) :
    ∀ {earlier later : List α}, Follows Q earlier later → ∀ a ∈ later, P a
  | _, [], _ => by simp
  | earlier, a :: later, h =>
    List.forall_mem_cons.mpr ⟨hQ earlier a h.1, Follows.forall hQ h.2⟩

theorem follows_const {P : α → Prop} : ∀ {earlier later : List α},
    Follows (fun _ => P) earlier later ↔ ∀ a ∈ later, P a
  | _, [] => by simp [Follows]
  | earlier, a :: later => by
    rw [Follows, follows_const, List.forall_mem_cons]

/-- Items whose keys are new when they come have distinct keys. -/
theorem Follows.nodup {β : Type} {Q : List α → α → Prop} {key : α → β}
    (hQ : ∀ earlier a, Q earlier a → ∀ e ∈ earlier, key e ≠ key a) :
    ∀ {earlier later : List α}, Follows Q earlier later →
      (later.map key).Nodup ∧ ∀ e ∈ earlier, ∀ a ∈ later, key e ≠ key a
  | _, [], _ => by simp
  | earlier, a :: later, h => by
    obtain ⟨hnodup, hnew⟩ := Follows.nodup hQ h.2
    rw [List.forall_mem_cons] at hnew
    refine ⟨?_, fun e he => List.forall_mem_cons.mpr ⟨hQ earlier a h.1 e he, hnew.2 e he⟩⟩
    rw [List.map_cons, List.nodup_cons]
    refine ⟨fun hmem => ?_, hnodup⟩
    obtain ⟨b, hb, hkey⟩ := List.mem_map.mp hmem
    exact hnew.1 b hb hkey.symm

/-- Conversely, items with distinct keys are new when they come. -/
theorem Follows.of_nodup {β : Type} {Q : List α → α → Prop} {P : α → Prop} {key : α → β}
    (hQ : ∀ earlier a, (∀ e ∈ earlier, key e ≠ key a) → P a → Q earlier a) :
    ∀ {earlier later : List α}, (later.map key).Nodup → (∀ a ∈ later, P a) →
      (∀ e ∈ earlier, ∀ a ∈ later, key e ≠ key a) → Follows Q earlier later
  | _, [], _, _, _ => trivial
  | earlier, a :: later, hnodup, hP, hnew => by
    rw [List.map_cons, List.nodup_cons] at hnodup
    obtain ⟨ha, hlater⟩ := List.forall_mem_cons.mp hP
    refine ⟨hQ earlier a (fun e he => hnew e he a (by simp)) ha,
      Follows.of_nodup hQ hnodup.2 hlater (List.forall_mem_cons.mpr ⟨?_, ?_⟩)⟩
    · intro b hb hkey
      exact hnodup.1 (List.mem_map.mpr ⟨b, hb, hkey.symm⟩)
    · exact fun e he b hb => hnew e he b (by simp [hb])

/-- What is asked of a named item after `earlier` ones: its name is new. -/
def Named (name : α → Bytes) (P : α → Prop) (earlier : List α) (a : α) : Prop :=
  isName (name a) = true ∧ P a ∧ ∀ e ∈ earlier, name e ≠ name a

theorem follows_named {name : α → Bytes} {P : α → Prop} {items : List α} :
    Follows (Named name P) [] items ↔ ProperNames (items.map name) ∧ ∀ a ∈ items, P a := by
  constructor
  · intro h
    refine ⟨⟨?_, (h.nodup fun _ _ hQ => hQ.2.2).1⟩, h.forall fun _ _ hQ => hQ.2.1⟩
    rw [List.forall_mem_map]
    exact h.forall fun _ _ hQ => hQ.1
  · rintro ⟨⟨hlexical, hdistinct⟩, hP⟩
    rw [List.forall_mem_map] at hlexical
    exact Follows.of_nodup (P := fun a => isName (name a) = true ∧ P a)
      (fun _ _ hnew ha => ⟨ha.1, ha.2, hnew⟩) hdistinct
      (fun a ha => ⟨hlexical a ha, hP a ha⟩) (by simp)

/-- What a repeated step gives, from what each step gives. `E` is what the items
satisfy where the loop stops. -/
theorem read_of_repeats (step : List α → Reading (Option α)) {tokens : α → List Token}
    {Q : List α → α → Prop} {E : List α → Prop}
    (hsome : ∀ ⦃earlier c a c'⦄, (step earlier).run c = .ok (some a, c') →
      Read (tokens a) c.rest c'.rest ∧ Q earlier a)
    (hnone : ∀ ⦃earlier c c'⦄, (step earlier).run c = .ok (none, c') →
      Read [] c.rest c'.rest ∧ E earlier)
    {earlier later : List α} {c c' : Cursor} (h : Repeats step earlier c later c') :
    Read (later.flatMap tokens) c.rest c'.rest ∧ Follows Q earlier later ∧
      E (later.reverse ++ earlier) := by
  induction h with
  | stop hfound =>
    obtain ⟨hread, hend⟩ := hnone hfound
    exact ⟨hread, trivial, hend⟩
  | next hfound _ ih =>
    obtain ⟨hread, hQ⟩ := hsome hfound
    obtain ⟨hmore, hfollows, hend⟩ := ih
    exact ⟨hread.append hmore, ⟨hQ, hfollows⟩, by simpa using hend⟩

theorem progresses_of_read {step : List α → Reading (Option α)} {tokens : α → List Token}
    (hne : ∀ a, tokens a ≠ []) (hsome : ∀ ⦃earlier c a c'⦄,
      (step earlier).run c = .ok (some a, c') → Read (tokens a) c.rest c'.rest) :
    Progresses step :=
  fun _ _ a _ h => (hsome h).length_lt (hne a)

section Items

variable {item : List α → Reading α} {tokens : α → List Token} {Q : List α → α → Prop}

/-- One step of `itemsUntil`. -/
def untilStep (closing : UInt8) (item : List α → Reading α) (items : List α) :
    Reading (Option α) := do
  skipBlanks
  match ← peek with
  | none => fail (.unclosed closing)
  | some b => if b = closing then return none else some <$> item items

theorem itemsUntil_eq (closing : UInt8) (item : List α → Reading α) :
    itemsUntil closing item = many (untilStep closing item) := rfl

theorem read_of_untilStep_some (hitem : ∀ earlier, Gives (item earlier) tokens (Q earlier))
    {closing : UInt8} {earlier : List α} {c c' : Cursor} {a : α}
    (h : (untilStep closing item earlier).run c = .ok (some a, c')) :
    Read (tokens a) c.rest c'.rest ∧ Q earlier a := by
  obtain ⟨_, middle, hskip, h⟩ := bind_ok.mp h
  obtain ⟨found, _, hpeek, h⟩ := bind_ok.mp h
  obtain ⟨rfl, rfl⟩ := peek_ok.mp hpeek
  split at h
  · exact (fail_ok.mp h).elim
  · split at h
    · cases (pure_ok.mp h).1
    · obtain ⟨a', ha, heq⟩ := map_ok.mp h
      obtain rfl := Option.some.inj heq
      obtain ⟨hread, hQ⟩ := hitem earlier ha
      exact ⟨(gap_of_skipBlanks hskip).1.read.append hread, hQ⟩

theorem read_of_untilStep_none {closing : UInt8} {earlier : List α} {c c' : Cursor}
    (h : (untilStep closing item earlier).run c = .ok (none, c')) : Read [] c.rest c'.rest := by
  obtain ⟨_, middle, hskip, h⟩ := bind_ok.mp h
  obtain ⟨found, _, hpeek, h⟩ := bind_ok.mp h
  obtain ⟨rfl, rfl⟩ := peek_ok.mp hpeek
  split at h
  · exact (fail_ok.mp h).elim
  · split at h
    · obtain ⟨-, rfl⟩ := pure_ok.mp h
      exact (gap_of_skipBlanks hskip).1.read
    · obtain ⟨_, -, heq⟩ := map_ok.mp h
      cases heq

theorem progresses_untilStep (closing : UInt8)
    (hitem : ∀ earlier, Gives (item earlier) tokens (Q earlier)) (hne : ∀ a, tokens a ≠ []) :
    Progresses (untilStep closing item) :=
  progresses_of_read hne fun _ _ _ _ h => (read_of_untilStep_some hitem h).1

theorem gives_itemsUntil (closing : UInt8)
    (hitem : ∀ earlier, Gives (item earlier) tokens (Q earlier)) (hne : ∀ a, tokens a ≠ []) :
    Gives (itemsUntil closing item) (·.flatMap tokens) (Follows Q []) := by
  intro c items c' h
  rw [itemsUntil_eq, many_ok (progresses_untilStep closing hitem hne)] at h
  obtain ⟨hread, hfollows, -⟩ := read_of_repeats (untilStep closing item)
    (E := fun _ => True) (fun _ _ _ _ h => read_of_untilStep_some hitem h)
    (fun _ _ _ h => ⟨read_of_untilStep_none h, trivial⟩) h
  exact ⟨hread, hfollows⟩

/-- One step of `parenthesised`, which stops after an item only. -/
def parenthesisedStep (item : List α → Reading α) (items : List α) : Reading (Option α) := do
  skipBlanks
  if (← peek) = some (ascii ')') && !items.isEmpty then return none else some <$> item items

theorem parenthesised_eq (item : List α → Reading α) : parenthesised item = (do
    expect (ascii '(')
    let items ← many (parenthesisedStep item)
    expect (ascii ')')
    return items) := rfl

theorem read_of_parenthesisedStep_some (hitem : ∀ earlier, Gives (item earlier) tokens (Q earlier))
    {earlier : List α} {c c' : Cursor} {a : α}
    (h : (parenthesisedStep item earlier).run c = .ok (some a, c')) :
    Read (tokens a) c.rest c'.rest ∧ Q earlier a := by
  obtain ⟨_, middle, hskip, h⟩ := bind_ok.mp h
  obtain ⟨found, _, hpeek, h⟩ := bind_ok.mp h
  obtain ⟨rfl, rfl⟩ := peek_ok.mp hpeek
  split at h
  · cases (pure_ok.mp h).1
  · obtain ⟨a', ha, heq⟩ := map_ok.mp h
    obtain rfl := Option.some.inj heq
    obtain ⟨hread, hQ⟩ := hitem earlier ha
    exact ⟨(gap_of_skipBlanks hskip).1.read.append hread, hQ⟩

theorem read_of_parenthesisedStep_none {earlier : List α} {c c' : Cursor}
    (h : (parenthesisedStep item earlier).run c = .ok (none, c')) :
    Read [] c.rest c'.rest ∧ earlier ≠ [] := by
  obtain ⟨_, middle, hskip, h⟩ := bind_ok.mp h
  obtain ⟨found, _, hpeek, h⟩ := bind_ok.mp h
  obtain ⟨rfl, rfl⟩ := peek_ok.mp hpeek
  split at h
  · rename_i hstop
    obtain ⟨-, rfl⟩ := pure_ok.mp h
    simp only [Bool.and_eq_true, Bool.not_eq_true', List.isEmpty_eq_false_iff] at hstop
    exact ⟨(gap_of_skipBlanks hskip).1.read, hstop.2⟩
  · obtain ⟨_, -, heq⟩ := map_ok.mp h
    cases heq

theorem progresses_parenthesisedStep (hitem : ∀ earlier, Gives (item earlier) tokens (Q earlier))
    (hne : ∀ a, tokens a ≠ []) : Progresses (parenthesisedStep item) :=
  progresses_of_read hne fun _ _ _ _ h => (read_of_parenthesisedStep_some hitem h).1

theorem gives_parenthesised (hitem : ∀ earlier, Gives (item earlier) tokens (Q earlier))
    (hne : ∀ a, tokens a ≠ []) :
    Gives (parenthesised item) (parenthesisedTokens tokens) (Follows Q []) := by
  intro c items c' h
  rw [parenthesised_eq] at h
  obtain ⟨_, _, hopen, h⟩ := bind_ok.mp h
  obtain ⟨items', _, hitems, h⟩ := bind_ok.mp h
  obtain ⟨_, _, hclose, h⟩ := bind_ok.mp h
  obtain ⟨rfl, rfl⟩ := pure_ok.mp h
  obtain ⟨hread, hfollows, hend⟩ := read_of_repeats (parenthesisedStep item)
    (fun _ _ _ _ h => read_of_parenthesisedStep_some hitem h)
    (fun _ _ _ h => read_of_parenthesisedStep_none h)
    ((many_ok (progresses_parenthesisedStep hitem hne)).mp hitems)
  have hall := ((read_of_expect .openParen hopen).append hread).append
    (read_of_expect .closeParen hclose)
  refine ⟨?_, hfollows⟩
  cases items' with
  | nil => simp at hend
  | cons first rest => exact hall

end Items

/-! ## §3 Literals -/

theorem gives_entry {value : Reading α} {tokens : α → List Token} {P : α → Prop}
    (duplicate : Bytes → SyntaxProblem) (hvalue : Gives value tokens P)
    (earlier : List (Entry α)) :
    Gives (entry duplicate value earlier) (Entry.tokens tokens)
      (Named (·.name) (fun e => P e.value) earlier) := by
  intro c e c' h
  obtain ⟨location, _, hposition, h⟩ := bind_ok.mp h
  obtain ⟨rfl, rfl⟩ := position_ok.mp hposition
  obtain ⟨word, _, hname, h⟩ := bind_ok.mp h
  obtain ⟨hread, hlexical⟩ := read_of_name hname
  split at h
  · exact (failAt_ok.mp h).elim
  · rename_i hnew
    obtain ⟨_, _, hcolon, h⟩ := bind_ok.mp h
    obtain ⟨v, _, hv, h⟩ := bind_ok.mp h
    obtain ⟨rfl, rfl⟩ := pure_ok.mp h
    obtain ⟨hreadv, hP⟩ := hvalue hv
    refine ⟨(hread.append (read_of_expect .colon hcolon)).append hreadv, hlexical, hP, ?_⟩
    simpa using hnew

/-- What is asked of a literal that nests at most `budget` levels deep. -/
structure Fits (references : References) (budget : Nat) (l : Literal) : Prop where
  wellFormed : l.WellFormed
  depth : l.depth ≤ budget
  constant : references = .refused → l.Constant

/-- A literal without literals inside is its only node. -/
theorem fits_leaf {references : References} {budget : Nat} {l : Literal} (hnodes : l.nodes = [l])
    (hdepth : l.depth = 0) (hproper : l.Proper)
    (hconstant : references = .refused → l.isReference = false) : Fits references budget l where
  wellFormed := by simpa [Literal.WellFormed, hnodes] using hproper
  depth := by omega
  constant := by simpa [Literal.Constant, hnodes] using hconstant

theorem fits_list {references : References} {budget : Nat} {location : Location}
    {items : List Literal} : Fits references (budget + 1) (.list location items) ↔
      ∀ item ∈ items, Fits references budget item := by
  constructor
  · rintro ⟨hwellFormed, hdepth, hconstant⟩ item hitem
    exact ⟨(Literal.forall_nodes_list.mp hwellFormed).2 item hitem,
      Literal.depth_list_le.mp hdepth item hitem,
      fun hrefused => (Literal.forall_nodes_list.mp (hconstant hrefused)).2 item hitem⟩
  · intro h
    exact ⟨Literal.forall_nodes_list.mpr ⟨trivial, fun item hitem => (h item hitem).wellFormed⟩,
      Literal.depth_list_le.mpr fun item hitem => (h item hitem).depth, fun hrefused =>
        Literal.forall_nodes_list.mpr ⟨rfl, fun item hitem => (h item hitem).constant hrefused⟩⟩

theorem fits_object {references : References} {budget : Nat} {location : Location}
    {fields : List (Entry Literal)} : Fits references (budget + 1) (.object location fields) ↔
      ProperNames (fields.map (·.name)) ∧
        ∀ field ∈ fields, Fits references budget field.value := by
  constructor
  · intro h
    obtain ⟨hwellFormed, hdepth, hconstant⟩ := h
    obtain ⟨hnames, hfields⟩ := Literal.forall_nodes_object.mp hwellFormed
    exact ⟨hnames, fun field hfield => ⟨hfields field hfield,
      Literal.depth_object_le.mp hdepth field hfield,
      fun hrefused => (Literal.forall_nodes_object.mp (hconstant hrefused)).2 field hfield⟩⟩
  · intro h
    obtain ⟨hnames, h⟩ := h
    exact ⟨Literal.forall_nodes_object.mpr
        ⟨hnames, fun field hfield => (h field hfield).wellFormed⟩,
      Literal.depth_object_le.mpr fun field hfield => (h field hfield).depth, fun hrefused =>
        Literal.forall_nodes_object.mpr
          ⟨rfl, fun field hfield => (h field hfield).constant hrefused⟩⟩

theorem Literal.tokens_ne_nil (l : Literal) : l.tokens ≠ [] := by
  cases l <;> simp [Literal.tokens]

theorem gives_listLiteral {references : References} {budget : Nat} {item : Reading Literal}
    (hitem : Gives item Literal.tokens (Fits references budget)) (location : Location) :
    Gives (listLiteral location item) Literal.tokens (Fits references (budget + 1)) := by
  intro c l c' h
  obtain ⟨_, _, hopen, h⟩ := bind_ok.mp h
  obtain ⟨items, _, hitems, h⟩ := bind_ok.mp h
  obtain ⟨_, _, hclose, h⟩ := bind_ok.mp h
  obtain ⟨rfl, rfl⟩ := pure_ok.mp h
  obtain ⟨hread, hfollows⟩ := gives_itemsUntil (ascii ']') (Q := fun _ => Fits references budget)
    (fun _ => hitem) Literal.tokens_ne_nil hitems
  refine ⟨?_, fits_list.mpr (follows_const.mp hfollows)⟩
  rw [Literal.tokens_list]
  exact ((read_of_expect .openBracket hopen).append hread).append
    (read_of_expect .closeBracket hclose)

theorem gives_objectLiteral {references : References} {budget : Nat} {value : Reading Literal}
    (hvalue : Gives value Literal.tokens (Fits references budget)) (location : Location) :
    Gives (objectLiteral location value) Literal.tokens (Fits references (budget + 1)) := by
  intro c l c' h
  obtain ⟨_, _, hopen, h⟩ := bind_ok.mp h
  obtain ⟨fields, _, hfields, h⟩ := bind_ok.mp h
  obtain ⟨_, _, hclose, h⟩ := bind_ok.mp h
  obtain ⟨rfl, rfl⟩ := pure_ok.mp h
  obtain ⟨hread, hfollows⟩ := gives_itemsUntil (ascii '}')
    (gives_entry .duplicateInputField hvalue) (by simp [Entry.tokens]) hfields
  obtain ⟨hnames, hvalues⟩ := follows_named.mp hfollows
  refine ⟨?_, fits_object.mpr ⟨hnames, hvalues⟩⟩
  rw [Literal.tokens_object]
  exact ((read_of_expect .openBrace hopen).append hread).append
    (read_of_expect .closeBrace hclose)

theorem gives_reference (references : References) {c c' : Cursor} {location : Location}
    {l : Literal} {budget : Nat} (hdollar : c.rest.head? = some (ascii '$'))
    (h : (reference references location).run c = .ok (l, c')) :
    Read l.tokens c.rest c'.rest ∧ Fits references budget l := by
  obtain ⟨_, _, hadvance, h⟩ := bind_ok.mp h
  obtain rfl := advance_ok.mp hadvance
  obtain ⟨word, _, hname, h⟩ := bind_ok.mp h
  obtain ⟨hread, hlexical⟩ := read_of_name hname
  cases references with
  | refused => exact (failAt_ok.mp h).elim
  | allowed =>
    obtain ⟨rfl, rfl⟩ := pure_ok.mp h
    exact ⟨(read_of_head? .dollar hdollar).append hread,
      fits_leaf rfl rfl hlexical fun hrefused => by cases hrefused⟩

theorem wordOf_spec {references : References} {budget : Nat} (location : Location) {word : Bytes}
    (h : isName word = true) :
    (wordOf location word).tokens = [.name word] ∧
      Fits references budget (wordOf location word) := by
  unfold wordOf
  split
  · rename_i hword
    exact ⟨by rw [hword]; rfl, fits_leaf rfl rfl trivial fun _ => rfl⟩
  · rename_i htrue
    split
    · rename_i hword
      exact ⟨by rw [hword]; rfl, fits_leaf rfl rfl trivial fun _ => rfl⟩
    · rename_i hfalse
      split
      · rename_i hword
        exact ⟨by rw [hword]; rfl, fits_leaf rfl rfl trivial fun _ => rfl⟩
      · rename_i hnull
        have hfree : word ∉ reservedWords := by simp [reservedWords, htrue, hfalse, hnull]
        exact ⟨rfl, fits_leaf rfl rfl ⟨h, hfree⟩ fun _ => rfl⟩

theorem fits_number {references : References} {budget : Nat} {location : Location} {l : Literal}
    (h : (∃ value, l = .int location value) ∨ ∃ value, l = .float location value) :
    Fits references budget l := by
  rcases h with ⟨value, rfl⟩ | ⟨value, rfl⟩
  · have hlow := value.le_toInt
    have hhigh := value.toInt_lt
    exact fits_leaf rfl rfl ⟨by omega, by omega⟩ fun _ => rfl
  · exact fits_leaf rfl rfl trivial fun _ => rfl

theorem gives_literalWith {references : References} {inner : Option (Reading Literal)}
    {budget : Nat} (hinner : ∀ r ∈ inner, ∃ less, budget = less + 1 ∧
      Gives r Literal.tokens (Fits references less)) :
    Gives (literalWith references inner) Literal.tokens (Fits references budget) := by
  intro c l c' h
  obtain ⟨_, settled, hskip, h⟩ := bind_ok.mp h
  obtain ⟨location, _, hposition, h⟩ := bind_ok.mp h
  obtain ⟨rfl, rfl⟩ := position_ok.mp hposition
  obtain ⟨found, _, hpeek, h⟩ := bind_ok.mp h
  obtain ⟨rfl, rfl⟩ := peek_ok.mp hpeek
  have hgap := (gap_of_skipBlanks hskip).1
  suffices hsuffices : Read l.tokens settled.rest c'.rest ∧ Fits references budget l from
    ⟨hgap.read.append hsuffices.1, hsuffices.2⟩
  -- The bracket and the brace hand over to what is read one level deeper.
  have deeper {body : Reading Literal → Reading Literal} (hbody : ∀ r less,
      Gives r Literal.tokens (Fits references less) →
        Gives (body r) Literal.tokens (Fits references (less + 1)))
      (h : (nested inner body).run settled = .ok (l, c')) :
      Read l.tokens settled.rest c'.rest ∧ Fits references budget l := by
    cases inner with
    | none => exact (fail_ok.mp h).elim
    | some r =>
      obtain ⟨less, rfl, hr⟩ := hinner r rfl
      exact hbody r less hr h
  split at h
  · exact (fail_ok.mp h).elim
  · rename_i b hb
    split at h
    · rename_i hdollar
      exact gives_reference references (hdollar ▸ hb) h
    · split at h
      · rename_i hquote
        obtain ⟨characters, rfl, hread⟩ := read_of_string (hquote ▸ hb) h
        exact ⟨hread, fits_leaf rfl rfl ⟨characters, rfl⟩ fun _ => rfl⟩
      · split at h
        · obtain ⟨hread, hkind⟩ := read_of_number h
          exact ⟨hread, fits_number hkind⟩
        · split at h
          · exact deeper (fun r less hr => gives_listLiteral hr _) h
          · split at h
            · exact deeper (fun r less hr => gives_objectLiteral hr _) h
            · split at h
              · obtain ⟨word, hword, rfl⟩ := map_ok.mp h
                obtain ⟨hread, hlexical⟩ := read_of_name hword
                obtain ⟨htokens, hfits⟩ := wordOf_spec settled.location hlexical
                exact ⟨htokens ▸ hread, hfits⟩
              · exact (fail_ok.mp h).elim

theorem gives_literal (references : References) (budget : Nat) :
    Gives (literal references budget) Literal.tokens (Fits references budget) := by
  induction budget with
  | zero => exact gives_literalWith (by simp)
  | succ budget ih => exact gives_literalWith (by simpa using ih)

end GraphQL.Reading
