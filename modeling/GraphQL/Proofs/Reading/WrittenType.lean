/-
GraphQL.Proofs.Reading.WrittenType — the types of variables and the types of a
schema are one language.

  §1 Tokens     — the words of a type are the words of its tokens.
  §2 Layouts    — words with blanks around them are a layout of their tokens.
  §3 Ends       — a type that is the last thing in a text.
  §4 Agreement  — both readers accept the same texts, as the same types.

The one reader scans the text and the other peels it from both ends, so they are
compared through the grammar that each of them was shown to follow. They differ
in the bytes they take for blanks: `SharedBlanks` leaves those out.
-/
import GraphQL.Proofs.Grammar.Printed
import GraphQL.Proofs.Reading.CompleteDocument
import GraphQL.Proofs.Schema.WrittenType
import Mathlib.Data.List.Chain

namespace GraphQL

open Reading WrittenType

/-! ## §1 Tokens -/

/-- The words of the tokens of a type derive that type. -/
theorem derives_tokens : ∀ type : TypeExpr Bytes, type.MarkedOnce → isName type.leaf = true →
    Derives type.leaf type.wrappers (type.tokens.map Token.text)
  | .named _, _, hname => .name hname
  | .list element, hmarks, hname => by
    rw [TypeExpr.tokens, List.map_append, List.map_cons]
    exact .list (derives_tokens element hmarks hname)
  | .nonNull (.named _), _, hname => .markedName hname
  | .nonNull (.list element), ⟨_, hmarks⟩, hname => by
    rw [TypeExpr.tokens, TypeExpr.tokens, List.map_append, List.map_append, List.map_cons,
      List.cons_append, List.cons_append, List.append_assoc]
    exact .markedList (derives_tokens element hmarks hname)
  | .nonNull (.nonNull _), ⟨hplain, _⟩, _ => by cases hplain

/-- Words that derive a type are the words of its tokens. -/
theorem spec_of_derives {name : Bytes} {wrappers : List Wrapper} {words : List Bytes}
    (h : Derives name wrappers words) : isName name = true ∧
      (TypeExpr.wrapped name wrappers).MarkedOnce ∧
      words = (TypeExpr.wrapped name wrappers).tokens.map Token.text := by
  induction h with
  | name lexical => exact ⟨lexical, trivial, rfl⟩
  | markedName lexical => exact ⟨lexical, ⟨rfl, trivial⟩, rfl⟩
  | list _ ih =>
    obtain ⟨hname, hmarks, rfl⟩ := ih
    refine ⟨hname, hmarks, ?_⟩
    simp [TypeExpr.wrapped, TypeExpr.tokens, Token.text, Punctuator.byte]
  | markedList _ ih =>
    obtain ⟨hname, hmarks, rfl⟩ := ih
    refine ⟨hname, ⟨rfl, hmarks⟩, ?_⟩
    simp [TypeExpr.wrapped, TypeExpr.tokens, Token.text, Punctuator.byte]

/-- The tokens of types: names and punctuators. -/
def Token.IsOfType : Token → Prop
  | .punctuator _ => True
  | .name word => isName word = true
  | .int _ | .float _ | .string _ => False

/-- The token is a name. -/
def Token.isNamed : Token → Bool
  | .name _ => true
  | _ => false

theorem isOfType_tokens {type : TypeExpr Bytes} (hname : isName type.leaf = true) :
    ∀ t ∈ type.tokens, t.IsOfType := by
  induction type with
  | named name => exact List.forall_mem_singleton.mpr hname
  | list element ih => simpa [TypeExpr.tokens, Token.IsOfType, or_imp, forall_and] using ih hname
  | nonNull inner ih => simpa [TypeExpr.tokens, Token.IsOfType, or_imp, forall_and] using ih hname

/-- No two names stand next to each other in a type. -/
theorem isChain_tokens (type : TypeExpr Bytes) :
    type.tokens.IsChain fun first second => first.isNamed = true → second.isNamed = false := by
  induction type with
  | named name => exact List.isChain_singleton _
  | list element ih =>
    rw [TypeExpr.tokens, List.cons_append, List.isChain_cons, List.isChain_append]
    exact ⟨by simp [Token.isNamed], ih, List.isChain_singleton _, by simp [Token.isNamed]⟩
  | nonNull inner ih =>
    rw [TypeExpr.tokens, List.isChain_append]
    exact ⟨ih, List.isChain_singleton _, by simp [Token.isNamed]⟩

/-! ## §2 Layouts -/

/-- No byte of the text is a blank for one of the readers only: no comma, no
number sign, no vertical tab and no form feed. -/
def SharedBlanks (text : Bytes) : Prop :=
  ∀ b ∈ text, b ≠ ascii ',' ∧ b ≠ ascii '#' ∧ b ≠ 0x0B ∧ b ≠ 0x0C

theorem SharedBlanks.isSpace_eq {text : Bytes} (h : SharedBlanks text) {b : UInt8} (hb : b ∈ text) :
    isSpace b = isBlank b := by
  have hall : ∀ b, b ≠ ascii ',' ∧ b ≠ ascii '#' ∧ b ≠ 0x0B ∧ b ≠ 0x0C → isSpace b = isBlank b :=
    forall_byte (by decide +kernel)
  exact hall b (h b hb)

theorem sharedBlanks_append {first second : Bytes} :
    SharedBlanks (first ++ second) ↔ SharedBlanks first ∧ SharedBlanks second :=
  List.forall_mem_append

theorem ignored_of_blank {gap : Bytes} (hshared : SharedBlanks gap) (h : Blank gap) :
    Ignored gap := by
  induction gap with
  | nil => exact .nil
  | cons b rest ih =>
    obtain ⟨hb, hrest⟩ := List.forall_mem_cons.mp h
    refine .blank ?_ (ih (List.forall_mem_cons.mp hshared).2 hrest)
    rw [← hshared.isSpace_eq (List.mem_cons_self), hb]

theorem blank_of_ignored {gap : Bytes} (hshared : SharedBlanks gap) (h : Ignored gap) :
    Blank gap := by
  induction h with
  | nil => exact .nil
  | @blank b rest hb _ ih =>
    refine List.forall_mem_cons.mpr ⟨?_, ih (List.forall_mem_cons.mp hshared).2⟩
    rw [hshared.isSpace_eq (List.mem_cons_self), hb]
  | comment => exact absurd rfl (hshared _ (List.mem_cons_self)).2.1

theorem blank_of_trailing {gap : Bytes} (hshared : SharedBlanks gap) (h : Trailing gap) :
    Blank gap := by
  cases h with
  | closed h => exact blank_of_ignored hshared h
  | comment => exact absurd rfl (hshared (ascii '#') (by simp)).2.1

theorem Token.IsOfType.printable {t : Token} (h : t.IsOfType) : t.Printable := by
  cases t with
  | punctuator _ => trivial
  | name _ => exact h
  | int _ | float _ | string _ => exact h.elim

theorem Token.IsOfType.spells {t : Token} (h : t.IsOfType) {word : Bytes} (hword : t.Spells word) :
    word = t.text := by
  cases hword with
  | punctuator | name => rfl
  | int | float | string => exact h.elim

/-- Words with blanks around them are the words printed with those blanks. -/
theorem printed_of_spaced {ts : List Token} {text : Bytes} (h : Spaced (ts.map Token.text) text) :
    ∃ gap, (∀ i, Blank (gap i)) ∧ text = printed gap ts := by
  induction ts generalizing text with
  | nil =>
    cases h with
    | nil blank => exact ⟨fun _ => text, fun _ => blank, rfl⟩
  | cons t ts ih =>
    cases h with
    | @cons _ first rest _ blank more =>
      obtain ⟨gap, hgap, rfl⟩ := ih more
      refine ⟨fun i => Nat.casesOn (motive := fun _ => Bytes) i first gap, fun i => ?_, rfl⟩
      cases i with
      | zero => exact blank
      | succ i => exact hgap i

theorem sharedBlanks_of_printed {ts : List Token} {gap : Nat → Bytes}
    (h : SharedBlanks (printed gap ts)) : ∀ i ≤ ts.length, SharedBlanks (gap i) := by
  induction ts generalizing gap with
  | nil =>
    intro i hi
    obtain rfl : i = 0 := Nat.le_zero.mp hi
    exact h
  | cons t ts ih =>
    rw [printed, sharedBlanks_append, sharedBlanks_append] at h
    intro i hi
    cases i with
    | zero => exact h.1
    | succ i => exact ih h.2.2 i (Nat.le_of_succ_le_succ hi)

theorem laid_of_spaced {ts : List Token} (htype : ∀ t ∈ ts, t.IsOfType)
    (hchain : ts.IsChain fun first second => first.isNamed = true → second.isNamed = false)
    {text : Bytes} (hshared : SharedBlanks text) (h : Spaced (ts.map Token.text) text) :
    ∃ rest, Laid ts text rest ∧ Ignored rest := by
  obtain ⟨gap, hgap, rfl⟩ := printed_of_spaced h
  have hignored : ∀ i ≤ ts.length, Ignored (gap i) := fun i hi =>
    ignored_of_blank (sharedBlanks_of_printed hshared i hi) (hgap i)
  refine ⟨_, laid_printed ⟨hignored, ?_⟩ fun t ht => (htype t ht).printable,
    hignored _ (Nat.le_refl _)⟩
  -- Only names run together, and no two of them are neighbours.
  rintro i first second hfirst hsecond ⟨hopen, b, hb, hname⟩
  obtain ⟨hi, rfl⟩ := List.getElem?_eq_some_iff.mp hsecond
  obtain ⟨_, rfl⟩ := List.getElem?_eq_some_iff.mp hfirst
  have hapart := List.isChain_iff_getElem.mp hchain i hi
  have hfirstType := htype ts[i] (List.getElem_mem _)
  have hsecondType := htype ts[i + 1] (List.getElem_mem _)
  cases hf : ts[i] with
  | punctuator _ =>
    rw [hf] at hopen
    cases hopen
  | int _ | float _ | string _ =>
    rw [hf] at hfirstType
    exact hfirstType.elim
  | name _ =>
    cases hs : ts[i + 1] with
    | name _ => simp [hf, hs, Token.isNamed] at hapart
    | int _ | float _ | string _ =>
      rw [hs] at hsecondType
      exact hsecondType.elim
    | punctuator sign =>
      rw [hs] at hb
      obtain rfl : sign.byte = b := Option.some.inj hb
      exact absurd hname (by cases sign <;> decide)

theorem spaced_of_laid {ts : List Token} (htype : ∀ t ∈ ts, t.IsOfType) {text rest : Bytes}
    (hshared : SharedBlanks text) (h : Laid ts text rest) :
    ∃ front, text = front ++ rest ∧ Spaced (ts.map Token.text) front := by
  induction ts generalizing text with
  | nil => exact ⟨[], laid_nil.mp h, .nil .nil⟩
  | cons t ts ih =>
    obtain ⟨gap, word, middle, rfl, hgap, hword, -, hts⟩ := h
    obtain ⟨ht, hrest⟩ := List.forall_mem_cons.mp htype
    rw [sharedBlanks_append, sharedBlanks_append] at hshared
    obtain ⟨front, rfl, hfront⟩ := ih hrest hshared.2.2 hts
    obtain rfl := ht.spells hword
    exact ⟨gap ++ (t.text ++ front), by simp, .cons (blank_of_ignored hshared.1 hgap) hfront⟩

/-! ## §3 Ends -/

namespace Reading

theorem runs_nonNullMark_end (type : TypeExpr Bytes) (marked : Bool) {text rest : Bytes}
    (hlaid : Laid (if marked then [.punctuator .bang] else []) text rest) (hrest : Ignored rest) :
    Runs (nonNullMark type) text fun found after =>
      found = markedType marked type ∧ Ignored after := by
  cases marked with
  | true =>
    apply (runs_accept .bang hlaid).bind_eq
    rintro _ rfl
    exact .pure ⟨rfl, hrest⟩
  | false =>
    obtain rfl := laid_nil.mp hlaid
    have hskip : Runs skipBlanks text fun _ middle => middle = [] :=
      fun location => ⟨(), _, skipBlanks_ok.mpr rfl, skipFrom_trailing (.closed hrest) location⟩
    have haccept :
        Runs (accept (ascii '!')) text fun found middle => found = false ∧ middle = [] := by
      refine hskip.bind ?_
      rintro _ _ rfl
      exact Runs.peek_bind (.pure ⟨rfl, rfl⟩)
    apply haccept.bind_eq
    rintro _ rfl
    exact .pure ⟨rfl, .nil⟩

/-- A type is read up to the end of the text that it is written in. -/
theorem runs_writtenType_end {budget : Nat} {type : TypeExpr Bytes} (hfits : FitsType budget type)
    {text rest : Bytes} (hlaid : Laid type.tokens text rest) (hrest : Ignored rest) :
    Runs (writtenType budget) text fun found after => found = type ∧ Ignored after := by
  cases budget with
  | zero => exact absurd hfits.levels (Nat.not_le.mpr (levels_pos type))
  | succ budget =>
    obtain ⟨core, marked, rfl, hcore⟩ := exists_markedType hfits.marks
    rw [markedType_tokens] at hlaid
    apply runs_typeWith (accepts_writtenType budget) (fitsType_markedType hfits) hcore hlaid
    intro _ hmark
    exact runs_nonNullMark_end core marked hmark hrest

/-! ## §4 Agreement -/

/-- Every list has one opening bracket, and the name counts as a level as well. -/
theorem levels_eq {type : TypeExpr Bytes} (hname : isName type.leaf = true) :
    type.levels = type.text.count (ascii '[') + 1 := by
  induction type with
  | named name =>
    have hfree : ascii '[' ∉ name := fun hmem =>
      absurd (isNameByte_of_isName hname _ hmem) (by decide)
    rw [TypeExpr.levels, TypeExpr.text, List.count_eq_zero_of_not_mem hfree]
  | list element ih =>
    have hclose : List.count (ascii '[') [ascii ']'] = 0 := by decide
    simp [TypeExpr.levels, TypeExpr.text, ih hname, hclose]
  | nonNull inner ih =>
    have hbang : List.count (ascii '[') [ascii '!'] = 0 := by decide
    simp [TypeExpr.levels, TypeExpr.text, ih hname, hbang]

/-- A variable's type and a type of a schema that are written the same way are the
same type: on a text where the two readers agree on what a blank is, with fewer
opening brackets than types may have levels, the one succeeds with a type exactly
if the other does and leaves nothing but ignored text. -/
theorem writtenType_agrees {text : Bytes} (hshared : SharedBlanks text)
    (hopen : text.count (ascii '[') < nestingLimit) (type : TypeExpr Bytes) :
    WrittenType.ofText text = .ok type ↔
      ∃ after, (writtenType nestingLimit).run ⟨text, Location.start⟩ = .ok (type, after) ∧
        Ignored after.rest := by
  rw [ofText_ok]
  constructor
  · rintro ⟨words, hwords, hspaced⟩
    have htext := hspaced.filter_eq hwords.solid
    rw [← hwords.text_eq, wrapped_wrappers] at htext
    obtain ⟨hname, hmarks, rfl⟩ := spec_of_derives hwords
    rw [wrapped_wrappers] at hmarks hspaced
    have hcount : type.text.count (ascii '[') = text.count (ascii '[') := by
      rw [← htext, List.count_filter (by decide)]
    have hlevels : type.levels ≤ nestingLimit := by
      rw [levels_eq hname, hcount]
      exact hopen
    obtain ⟨rest, hlaid, hrest⟩ :=
      laid_of_spaced (isOfType_tokens hname) (isChain_tokens type) hshared hspaced
    obtain ⟨_, after, hrun, rfl, hafter⟩ :=
      runs_writtenType_end ⟨hname, hmarks, hlevels⟩ hlaid hrest Location.start
    exact ⟨after, hrun, hafter⟩
  · rintro ⟨after, hrun, hafter⟩
    obtain ⟨⟨middle, hlaid, hgap⟩, hfits⟩ := gives_writtenType nestingLimit hrun
    have htail : Trailing middle := (hgap.trans (.inl ⟨_, by simp, hafter⟩)).trailing
    obtain ⟨front, rfl, hfront⟩ := spaced_of_laid (isOfType_tokens hfits.leaf) hshared hlaid
    have hblank := blank_of_trailing (sharedBlanks_append.mp hshared).2 htail
    refine ⟨_, derives_tokens type hfits.marks hfits.leaf, ?_⟩
    simpa using hfront.append (.nil hblank)

theorem writtenType_agrees_row :
    SharedBlanks (utf8 "[Int!]\n! ") ∧ (utf8 "[Int!]\n! ").count (ascii '[') < nestingLimit ∧
    (∃ after, (writtenType nestingLimit).run ⟨utf8 "[Int!]\n! ", Location.start⟩ =
      .ok (.nonNull (.list (.nonNull (.named (utf8 "Int")))), after) ∧ Ignored after.rest) := by
  have hshared : SharedBlanks (utf8 "[Int!]\n! ") := by
    unfold SharedBlanks
    decide +kernel
  have hopen : (utf8 "[Int!]\n! ").count (ascii '[') < nestingLimit := by decide +kernel
  exact ⟨hshared, hopen, (writtenType_agrees hshared hopen _).mp (by decide +kernel)⟩

end Reading

end GraphQL
