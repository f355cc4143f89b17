/-
GraphQL.Proofs.Schema.WrittenType — the types of a schema, and the grammar of
their texts.

  §1 Grammar   — the words of a type, and texts with blanks around every word.
  §2 Words     — which wrappers have words, and what the words are together.
  §3 Ends      — a text read from both ends: blanks, a mark, a core.
  §4 Reading   — by induction on the derivation, and on the fuel.

The grammar is read from left to right and the text from both ends. What joins
them is the core of a text: what is left when the blanks and the mark are cut
off. It is a name or a pair of brackets around the text of another type.
-/
import GraphQL.Proofs.Text.Utf8
import GraphQL.Schema.WrittenType

namespace GraphQL

/-! ## §1 Grammar -/

/-- The type of a name inside wrappers, outermost first. -/
def TypeExpr.wrapped {α : Type} (leaf : α) : List Wrapper → TypeExpr α
  | [] => .named leaf
  | .list :: wrappers => .list (wrapped leaf wrappers)
  | .nonNull :: wrappers => .nonNull (wrapped leaf wrappers)

namespace WrittenType

/-- The words of a type, by its name and its wrappers, outermost first:
`T ::= Name | Name ! | [ T ] | [ T ] !`. -/
inductive Derives : Bytes → List Wrapper → List Bytes → Prop where
  | name {name : Bytes} (lexical : isName name = true) : Derives name [] [name]
  | markedName {name : Bytes} (lexical : isName name = true) :
    Derives name [.nonNull] [name, [ascii '!']]
  | list {name : Bytes} {wrappers : List Wrapper} {words : List Bytes}
    (element : Derives name wrappers words) :
    Derives name (.list :: wrappers) ([ascii '['] :: (words ++ [[ascii ']']]))
  | markedList {name : Bytes} {wrappers : List Wrapper} {words : List Bytes}
    (element : Derives name wrappers words) :
    Derives name (.nonNull :: .list :: wrappers)
      ([ascii '['] :: (words ++ [[ascii ']'], [ascii '!']]))

/-- Nothing but blanks. -/
def Blank (gap : Bytes) : Prop := ∀ b ∈ gap, isSpace b = true

/-- The text is the words in order, with blanks before, between and after them. -/
inductive Spaced : List Bytes → Bytes → Prop where
  | nil {gap : Bytes} (blank : Blank gap) : Spaced [] gap
  | cons {word gap rest : Bytes} {words : List Bytes} (blank : Blank gap)
    (more : Spaced words rest) : Spaced (word :: words) (gap ++ (word ++ rest))

theorem Blank.nil : Blank [] := by simp [Blank]

theorem Blank.append {first second : Bytes} (h₁ : Blank first) (h₂ : Blank second) :
    Blank (first ++ second) := List.forall_mem_append.mpr ⟨h₁, h₂⟩

theorem Spaced.prepend {words : List Bytes} {gap text : Bytes} (hgap : Blank gap)
    (h : Spaced words text) : Spaced words (gap ++ text) := by
  cases h with
  | nil blank => exact .nil (hgap.append blank)
  | cons blank more =>
    rw [← List.append_assoc]
    exact .cons (hgap.append blank) more

theorem Spaced.append {words more : List Bytes} {text rest : Bytes} (h : Spaced words text)
    (hmore : Spaced more rest) : Spaced (words ++ more) (text ++ rest) := by
  induction h with
  | nil blank => exact hmore.prepend blank
  | cons blank _ ih =>
    rw [List.append_assoc, List.append_assoc]
    exact .cons blank ih

theorem Spaced.split {words more : List Bytes} {text : Bytes} (h : Spaced (words ++ more) text) :
    ∃ before after, text = before ++ after ∧ Spaced words before ∧ Spaced more after := by
  induction words generalizing text with
  | nil => exact ⟨[], text, rfl, .nil .nil, h⟩
  | cons word words ih =>
    cases h with
    | cons blank more =>
      obtain ⟨before, after, rfl, hbefore, hafter⟩ := ih more
      exact ⟨_, after, by simp, .cons blank hbefore, hafter⟩

/-- One word with blanks around it. -/
theorem spaced_singleton {word text : Bytes} :
    Spaced [word] text ↔ ∃ before after, text = before ++ (word ++ after) ∧ Blank before ∧
      Blank after := by
  constructor
  · intro h
    cases h with
    | cons blank more =>
      cases more with
      | nil after => exact ⟨_, _, rfl, blank, after⟩
  · rintro ⟨before, after, rfl, hbefore, hafter⟩
    exact .cons hbefore (.nil hafter)

/-- Words that stand next to each other without blanks. -/
theorem spaced_flatten (words : List Bytes) : Spaced words words.flatten := by
  induction words with
  | nil => exact .nil .nil
  | cons word words ih => exact .cons .nil ih

/-! ## §2 Words -/

@[simp] theorem leaf_wrapped {α : Type} (leaf : α) (wrappers : List Wrapper) :
    (TypeExpr.wrapped leaf wrappers).leaf = leaf := by
  induction wrappers with
  | nil => rfl
  | cons wrapper _ ih => cases wrapper <;> exact ih

@[simp] theorem wrappers_wrapped {α : Type} (leaf : α) (wrappers : List Wrapper) :
    (TypeExpr.wrapped leaf wrappers).wrappers = wrappers := by
  induction wrappers with
  | nil => rfl
  | cons wrapper _ ih => cases wrapper <;> exact congrArg (List.cons _) ih

@[simp] theorem wrapped_wrappers {α : Type} (type : TypeExpr α) :
    TypeExpr.wrapped type.leaf type.wrappers = type := by
  induction type with
  | named _ => rfl
  | list _ ih => exact congrArg TypeExpr.list ih
  | nonNull _ ih => exact congrArg TypeExpr.nonNull ih

/-- The written form of a type is its words without blanks. -/
theorem Derives.text_eq {name : Bytes} {wrappers : List Wrapper} {words : List Bytes}
    (h : Derives name wrappers words) : (TypeExpr.wrapped name wrappers).text = words.flatten := by
  induction h with
  | name => simp [TypeExpr.wrapped, TypeExpr.text]
  | markedName => simp [TypeExpr.wrapped, TypeExpr.text]
  | list _ ih => simp [TypeExpr.wrapped, TypeExpr.text, ih]
  | markedList _ ih => simp [TypeExpr.wrapped, TypeExpr.text, ih]

/-- Wrappers have words unless two marks stand next to each other. -/
theorem Derives.exists_words {name : Bytes} (hname : isName name = true) :
    ∀ {wrappers : List Wrapper}, ¬ [Wrapper.nonNull, .nonNull] <:+: wrappers →
      ∃ words, Derives name wrappers words
  | [], _ => ⟨_, .name hname⟩
  | .list :: wrappers, h => by
    obtain ⟨words, hwords⟩ := exists_words hname fun h' => h (List.infix_cons h')
    exact ⟨_, .list hwords⟩
  | [.nonNull], _ => ⟨_, .markedName hname⟩
  | .nonNull :: .list :: wrappers, h => by
    obtain ⟨words, hwords⟩ :=
      exists_words hname fun h' => h (List.infix_cons (List.infix_cons h'))
    exact ⟨_, .markedList hwords⟩
  | .nonNull :: .nonNull :: wrappers, h => absurd ⟨[], wrappers, rfl⟩ h

theorem isSpace_eq_false {b : UInt8} (h : isNameByte b = true) : isSpace b = false := by
  have hall : ∀ b, isNameByte b = true → isSpace b = false := forall_byte (by decide +kernel)
  exact hall b h

theorem isNameByte_of_isName {name : Bytes} (h : isName name = true) :
    ∀ b ∈ name, isNameByte b = true := by
  cases name with
  | nil => simp
  | cons first rest =>
    simp only [isName, Bool.and_eq_true, List.all_eq_true] at h
    exact List.forall_mem_cons.mpr ⟨by simp [isNameByte, h.1], h.2⟩

/-- No word has a blank in it. -/
theorem Derives.solid {name : Bytes} {wrappers : List Wrapper} {words : List Bytes}
    (h : Derives name wrappers words) : ∀ word ∈ words, ∀ b ∈ word, isSpace b = false := by
  have hsign : isSpace (ascii '[') = false ∧ isSpace (ascii ']') = false ∧
    isSpace (ascii '!') = false := by decide
  have hword {name : Bytes} (lexical : isName name = true) : ∀ b ∈ name, isSpace b = false :=
    fun b hb => isSpace_eq_false (isNameByte_of_isName lexical b hb)
  induction h with
  | name lexical => simpa using hword lexical
  | markedName lexical => simpa [hsign] using hword lexical
  | list _ ih => simpa [hsign, or_imp, forall_and] using ih
  | markedList _ ih => simpa [hsign, or_imp, forall_and] using ih

/-- Deleting the blanks leaves the words. -/
theorem Spaced.filter_eq {words : List Bytes} {text : Bytes} (h : Spaced words text)
    (hsolid : ∀ word ∈ words, ∀ b ∈ word, isSpace b = false) :
    text.filter (fun b => !isSpace b) = words.flatten := by
  have hblank {gap : Bytes} (hgap : Blank gap) : gap.filter (fun b => !isSpace b) = [] :=
    List.filter_eq_nil_iff.mpr fun b hb => by simp [hgap b hb]
  induction h with
  | nil blank => exact hblank blank
  | @cons word gap rest words blank _ ih =>
    obtain ⟨hword, hwords⟩ := List.forall_mem_cons.mp hsolid
    have hkept : word.filter (fun b => !isSpace b) = word :=
      List.filter_eq_self.mpr fun b hb => by simp [hword b hb]
    rw [List.filter_append, List.filter_append, hblank blank, hkept, ih hwords]
    rfl

/-! ## §3 Ends -/

/-- The text is the core with blanks around it, and after it the mark, if there is
one, with blanks around that. -/
def EndsIn (text core : Bytes) : Bool → Prop
  | false => ∃ before after, text = before ++ (core ++ after) ∧ Blank before ∧ Blank after
  | true => ∃ before middle after, text = before ++ (core ++ (middle ++ ascii '!' :: after)) ∧
      Blank before ∧ Blank middle ∧ Blank after

/-- A core is cut off from blanks and a mark: it neither begins with a blank nor
ends with one or with the mark. -/
structure Core (core : Bytes) : Prop where
  first : ∃ b rest, core = b :: rest ∧ isSpace b = false
  last : ∃ rest b, core = rest ++ [b] ∧ isSpace b = false ∧ b ≠ ascii '!'

theorem dropWhile_blank {gap rest : Bytes} {b : UInt8} (hgap : Blank gap)
    (hb : isSpace b = false) : (gap ++ b :: rest).dropWhile isSpace = b :: rest := by
  rw [List.dropWhile_append_of_pos hgap, List.dropWhile_cons_of_neg (by simp [hb])]

theorem Blank.reverse {gap : Bytes} (h : Blank gap) : Blank gap.reverse :=
  fun b hb => h b (List.mem_reverse.mp hb)

/-- The blanks at both ends are cut off, whatever solid text stands between. -/
theorem backwards_eq {before rest after : Bytes} {first last : UInt8} {more : Bytes}
    (hbefore : Blank before) (hafter : Blank after) (hfirst : isSpace first = false)
    (hlast : isSpace last = false) (heq : first :: more = rest ++ [last]) :
    backwards (before ++ (rest ++ (last :: after))) = last :: rest.reverse := by
  have hsplit : rest ++ (last :: after) = first :: (more ++ after) := by
    rw [← List.cons_append, heq, List.append_assoc]
    rfl
  unfold backwards
  rw [hsplit, dropWhile_blank hbefore hfirst, ← hsplit, List.reverse_append, List.reverse_cons,
    List.append_assoc]
  exact dropWhile_blank hafter.reverse hlast

theorem splitMark_of_endsIn {text core : Bytes} (hcore : Core core) : ∀ {mark : Bool},
    EndsIn text core mark → splitMark (backwards text) = (core.reverse, mark) := by
  obtain ⟨first, more, hfirst, hsolid⟩ := hcore.first
  obtain ⟨rest, last, rfl, hlast, hbang⟩ := hcore.last
  rintro (_ | _)
  · rintro ⟨before, after, rfl, hbefore, hafter⟩
    rw [List.append_assoc, List.singleton_append,
      backwards_eq hbefore hafter hsolid hlast hfirst.symm]
    simp [splitMark, hbang]
  · rintro ⟨before, middle, after, rfl, hbefore, hmiddle, hafter⟩
    have hmark : isSpace (ascii '!') = false := by decide
    have heq : first :: (more ++ middle ++ [ascii '!']) =
        (rest ++ [last] ++ middle) ++ [ascii '!'] := by
      simp [hfirst]
    rw [← List.append_assoc (rest ++ [last]), backwards_eq hbefore hafter hsolid hmark heq]
    simp only [splitMark, List.reverse_append, List.reverse_cons, List.reverse_nil,
      List.nil_append, List.singleton_append, if_true]
    rw [dropWhile_blank hmiddle.reverse hlast]

theorem exists_of_backwards (text : Bytes) :
    ∃ before after, text = before ++ ((backwards text).reverse ++ after) ∧ Blank before ∧
      Blank after := by
  have hblank (bytes : Bytes) : Blank (bytes.takeWhile isSpace) :=
    fun b hb => List.all_eq_true.mp List.all_takeWhile b hb
  refine ⟨text.takeWhile isSpace, ((text.dropWhile isSpace).reverse.takeWhile isSpace).reverse,
    ?_, hblank _, (hblank _).reverse⟩
  rw [backwards, ← List.reverse_append, List.takeWhile_append_dropWhile, List.reverse_reverse,
    List.takeWhile_append_dropWhile]

theorem endsIn_of_splitMark {text core : Bytes} {mark : Bool}
    (h : splitMark (backwards text) = (core, mark)) : EndsIn text core.reverse mark := by
  obtain ⟨before, after, htext, hbefore, hafter⟩ := exists_of_backwards text
  unfold splitMark at h
  split at h
  · rename_i hnil
    obtain ⟨rfl, rfl⟩ := Prod.mk.inj h
    rw [hnil] at htext
    exact ⟨before, after, htext, hbefore, hafter⟩
  · rename_i last rest hcons
    rw [hcons] at htext
    split at h
    · rename_i hmark
      obtain ⟨rfl, rfl⟩ := Prod.mk.inj h
      have hmiddle : Blank (rest.takeWhile isSpace) :=
        fun b hb => List.all_eq_true.mp List.all_takeWhile b hb
      refine ⟨before, (rest.takeWhile isSpace).reverse, after, ?_, hbefore, hmiddle.reverse, hafter⟩
      rw [htext, ← List.append_assoc (rest.dropWhile isSpace).reverse, ← List.reverse_append,
        List.takeWhile_append_dropWhile, hmark]
      simp
    · obtain ⟨rfl, rfl⟩ := Prod.mk.inj h
      exact ⟨before, after, htext, hbefore, hafter⟩

theorem core_name {name : Bytes} (h : isName name = true) : Core name := by
  have hbytes := isNameByte_of_isName h
  have hbang : isNameByte (ascii '!') = false := by decide
  have hne : name ≠ [] := by
    rintro rfl
    cases h
  constructor
  · obtain ⟨first, rest, rfl⟩ := List.exists_cons_of_ne_nil hne
    exact ⟨first, rest, rfl, isSpace_eq_false (hbytes first (by simp))⟩
  · refine ⟨name.dropLast, name.getLast hne, (List.dropLast_append_getLast hne).symm, ?_, ?_⟩
    · exact isSpace_eq_false (hbytes _ (List.getLast_mem hne))
    · intro heq
      have := hbytes _ (List.getLast_mem hne)
      rw [heq, hbang] at this
      cases this

theorem core_bracketed (inner : Bytes) : Core (ascii '[' :: (inner ++ [ascii ']'])) where
  first := ⟨_, _, rfl, by decide⟩
  last := ⟨ascii '[' :: inner, ascii ']', rfl, by decide⟩

/-- The words of a core, and the mark after them. -/
theorem spaced_of_endsIn {text core : Bytes} {words : List Bytes} {mark : Bool}
    (hcore : Spaced words core) (h : EndsIn text core mark) :
    Spaced (words ++ if mark then [[ascii '!']] else []) text := by
  cases mark with
  | false =>
    obtain ⟨before, after, rfl, hbefore, hafter⟩ := h
    exact (hcore.append (.nil hafter)).prepend hbefore
  | true =>
    obtain ⟨before, middle, after, rfl, hbefore, hmiddle, hafter⟩ := h
    have hmarked : Spaced [[ascii '!']] (middle ++ ([ascii '!'] ++ after)) :=
      spaced_singleton.mpr ⟨middle, after, rfl, hmiddle, hafter⟩
    exact (hcore.append hmarked).prepend hbefore

theorem endsIn_of_spaced {word text : Bytes} (mark : Bool)
    (h : Spaced ([word] ++ if mark then [[ascii '!']] else []) text) : EndsIn text word mark := by
  obtain ⟨first, second, rfl, hfirst, hsecond⟩ := h.split
  obtain ⟨before, after, rfl, hbefore, hafter⟩ := spaced_singleton.mp hfirst
  cases mark with
  | false =>
    cases hsecond with
    | nil blank => exact ⟨before, after ++ second, by simp, hbefore, hafter.append blank⟩
  | true =>
    obtain ⟨middle, last, rfl, hmiddle, hlast⟩ := spaced_singleton.mp hsecond
    exact ⟨before, after ++ middle, last, by simp, hbefore, hafter.append hmiddle, hlast⟩

/-! ## §4 Reading -/

theorem EndsIn.prepend {gap text core : Bytes} {mark : Bool} (hgap : Blank gap)
    (h : EndsIn text core mark) : EndsIn (gap ++ text) core mark := by
  cases mark with
  | false =>
    obtain ⟨before, after, rfl, hbefore, hafter⟩ := h
    exact ⟨gap ++ before, after, by simp, hgap.append hbefore, hafter⟩
  | true =>
    obtain ⟨before, middle, after, rfl, hbefore, hmiddle, hafter⟩ := h
    exact ⟨gap ++ before, middle, after, by simp, hgap.append hbefore, hmiddle, hafter⟩

/-- A core that is continued to the left takes up the blanks before it. -/
theorem EndsIn.extend {text core : Bytes} {mark : Bool} (front : Bytes)
    (h : EndsIn text core mark) :
    ∃ gap, Blank gap ∧ EndsIn (front ++ text) (front ++ (gap ++ core)) mark := by
  cases mark with
  | false =>
    obtain ⟨before, after, rfl, hbefore, hafter⟩ := h
    exact ⟨before, hbefore, [], after, by simp, .nil, hafter⟩
  | true =>
    obtain ⟨before, middle, after, rfl, hbefore, hmiddle, hafter⟩ := h
    exact ⟨before, hbefore, [], middle, after, by simp, .nil, hmiddle, hafter⟩

/-- The words of a bracketed type stand in a core between brackets. -/
theorem exists_inner_of_spaced {words : List Bytes} {text : Bytes} {mark : Bool}
    (h : Spaced ([ascii '['] :: (words ++ ([[ascii ']']] ++ if mark then [[ascii '!']] else [])))
      text) :
    ∃ inner, Spaced words inner ∧ EndsIn text (ascii '[' :: (inner ++ [ascii ']'])) mark := by
  cases h with
  | @cons _ gap _ _ hgap more =>
    obtain ⟨inside, after, rfl, hinside, hafter⟩ := more.split
    obtain ⟨last, hlast, hends⟩ := (endsIn_of_spaced mark hafter).extend (ascii '[' :: inside)
    refine ⟨inside ++ last, ?_, ?_⟩
    · simpa using hinside.append (Spaced.nil hlast)
    · rw [List.append_assoc]
      exact hends.prepend hgap

theorem spaced_of_inner {words : List Bytes} {inner : Bytes} (h : Spaced words inner) :
    Spaced ([ascii '['] :: (words ++ [[ascii ']']])) (ascii '[' :: (inner ++ [ascii ']'])) :=
  @Spaced.cons [ascii '['] [] _ _ .nil (h.append (spaced_flatten [[ascii ']']]))

theorem EndsIn.length_le {text core : Bytes} : ∀ {mark : Bool}, EndsIn text core mark →
    core.length ≤ text.length
  | false, ⟨_, _, htext, _, _⟩ => by simp [htext]; omega
  | true, ⟨_, _, _, htext, _, _, _⟩ => by simp [htext]; omega

theorem ofTextFrom_name (fuel : Nat) {text name : Bytes} {mark : Bool}
    (hname : isName name = true) (h : EndsIn text name mark) :
    ofTextFrom (fuel + 1) text = .ok (marked mark (.named name)) := by
  have hbytes := isNameByte_of_isName hname
  have hopen : name.head? ≠ some (ascii '[') := by
    intro hhead
    have := hbytes _ (List.mem_of_mem_head? hhead)
    exact absurd this (by decide)
  have hcore := core_name hname
  obtain ⟨rest, last, hlast, -⟩ := hcore.last
  have hreverse : name.reverse = last :: rest.reverse := by simp [hlast]
  have hfirst : (last :: rest.reverse).getLast? ≠ some (ascii '[') := by
    rwa [← hreverse, List.getLast?_reverse]
  have hsame : (last :: rest.reverse).reverse = name := by rw [← hreverse, List.reverse_reverse]
  simp only [ofTextFrom, splitMark_of_endsIn hcore h, hreverse, if_neg hfirst, hsame, hname,
    if_true]
  rfl

theorem ofTextFrom_bracketed (fuel : Nat) {text inner : Bytes} {mark : Bool}
    (h : EndsIn text (ascii '[' :: (inner ++ [ascii ']'])) mark) :
    ofTextFrom (fuel + 1) text = (do
      let element ← ofTextFrom fuel inner
      return marked mark (.list element)) := by
  have hreverse : (ascii '[' :: (inner ++ [ascii ']'])).reverse =
      ascii ']' :: (inner.reverse ++ [ascii '[']) := by simp
  have hfirst : (ascii ']' :: (inner.reverse ++ [ascii '['])).getLast? = some (ascii '[') := by
    rw [← List.cons_append, List.getLast?_concat]
  have hinner : (inner.reverse ++ [ascii '[']).reverse.tail = inner := by simp
  simp only [ofTextFrom, splitMark_of_endsIn (core_bracketed inner) h, hreverse, if_pos hfirst,
    if_true, hinner]

/-- Every way to write the words of a type is read as that type. -/
theorem ofTextFrom_of_derives {name : Bytes} {wrappers : List Wrapper} {words : List Bytes}
    (h : Derives name wrappers words) : ∀ {fuel : Nat} {text : Bytes}, Spaced words text →
      text.length < fuel → ofTextFrom fuel text = .ok (.wrapped name wrappers) := by
  -- A bracketed type, with its mark or without: the text inside the brackets is shorter.
  have bracketed {wrappers : List Wrapper} {words : List Bytes} (mark : Bool) {fuel : Nat}
      {text : Bytes} (ih : ∀ {fuel : Nat} {text : Bytes}, Spaced words text →
        text.length < fuel → ofTextFrom fuel text = .ok (.wrapped name wrappers))
      (hspaced : Spaced
        ([ascii '['] :: (words ++ ([[ascii ']']] ++ if mark then [[ascii '!']] else []))) text)
      (hfuel : text.length < fuel) :
      ofTextFrom fuel text = .ok (marked mark (.list (.wrapped name wrappers))) := by
    obtain ⟨inner, hinner, hends⟩ := exists_inner_of_spaced hspaced
    have hlength := hends.length_le
    simp only [List.length_cons, List.length_append, List.length_nil] at hlength
    obtain ⟨less, rfl⟩ := Nat.exists_eq_add_of_lt hfuel
    rw [ofTextFrom_bracketed _ hends, ih hinner (by omega)]
    rfl
  induction h with
  | name lexical =>
    intro fuel text hspaced hfuel
    obtain ⟨less, rfl⟩ := Nat.exists_eq_add_of_lt hfuel
    exact ofTextFrom_name _ lexical (endsIn_of_spaced false hspaced)
  | markedName lexical =>
    intro fuel text hspaced hfuel
    obtain ⟨less, rfl⟩ := Nat.exists_eq_add_of_lt hfuel
    exact ofTextFrom_name _ lexical (endsIn_of_spaced true hspaced)
  | list _ ih => exact fun hspaced hfuel => bracketed false ih hspaced hfuel
  | markedList _ ih => exact fun hspaced hfuel => bracketed true ih hspaced hfuel

theorem spaced_word (word : Bytes) : Spaced [word] word :=
  spaced_singleton.mpr ⟨[], [], by simp, .nil, .nil⟩

theorem derives_marked_named {name : Bytes} (hname : isName name = true) (mark : Bool) :
    Derives (marked mark (.named name)).leaf (marked mark (.named name)).wrappers
      ([name] ++ if mark then [[ascii '!']] else []) := by
  cases mark with
  | false => exact .name hname
  | true => exact .markedName hname

theorem derives_marked_list {element : TypeExpr Bytes} {words : List Bytes}
    (h : Derives element.leaf element.wrappers words) (mark : Bool) :
    Derives (marked mark (.list element)).leaf (marked mark (.list element)).wrappers
      ([ascii '['] :: (words ++ [[ascii ']']]) ++ if mark then [[ascii '!']] else []) := by
  cases mark with
  | false =>
    simp only [Bool.false_eq_true, if_false, List.append_nil]
    exact .list h
  | true =>
    rw [List.cons_append, List.append_assoc]
    exact .markedList h

/-- Only the ways to write the words of a type are read as that type. -/
theorem derives_of_ofTextFrom {fuel : Nat} : ∀ {text : Bytes} {type : TypeExpr Bytes},
    ofTextFrom fuel text = .ok type →
      ∃ words, Derives type.leaf type.wrappers words ∧ Spaced words text := by
  induction fuel with
  | zero =>
    intro text type h
    cases h
  | succ fuel ih =>
    intro text type h
    obtain ⟨core, mark, hsplit⟩ : ∃ core mark, splitMark (backwards text) = (core, mark) :=
      ⟨_, _, rfl⟩
    have hends := endsIn_of_splitMark hsplit
    simp only [ofTextFrom, hsplit] at h
    split at h
    · cases h
    · rename_i last before
      split at h
      · rename_i hopen
        split at h
        · rename_i hclose
          subst hclose
          -- The first byte of the core is not its last one, so something stands before that.
          obtain ⟨inner, rfl⟩ : ∃ inner, before = inner ++ [ascii '['] := by
            cases before with
            | nil => exact absurd (Option.some.inj hopen) (by decide)
            | cons b more => exact List.getLast?_eq_some_iff.mp (by simpa using hopen)
          have hbrackets : (ascii ']' :: (inner ++ [ascii '['])).reverse =
              ascii '[' :: (inner.reverse ++ [ascii ']']) := by simp
          have hinner : (inner ++ [ascii '[']).reverse.tail = inner.reverse := by simp
          rw [hbrackets] at hends
          rw [hinner] at h
          cases helement : ofTextFrom fuel inner.reverse with
          | error part =>
            rw [helement] at h
            cases h
          | ok element =>
            rw [helement] at h
            obtain rfl := Except.ok.inj h
            obtain ⟨words, hwords, hspaced⟩ := ih helement
            exact ⟨_, derives_marked_list hwords mark,
              spaced_of_endsIn (spaced_of_inner hspaced) hends⟩
        · cases h
      · split at h
        · rename_i hname
          obtain rfl := Except.ok.inj h
          exact ⟨_, derives_marked_named hname mark, spaced_of_endsIn (spaced_word _) hends⟩
        · cases h

/-- A text is read as a type exactly if it is a way to write the words of that
type. -/
theorem ofText_ok {text : Bytes} {type : TypeExpr Bytes} :
    ofText text = .ok type ↔
      ∃ words, Derives type.leaf type.wrappers words ∧ Spaced words text := by
  constructor
  · exact derives_of_ofTextFrom
  · rintro ⟨words, hwords, hspaced⟩
    rw [ofText, ofTextFrom_of_derives hwords hspaced (Nat.lt_succ_self _), wrapped_wrappers]

/-- Types are read exactly as the grammar has them, and as they are written.

A text is read as the type whose words it is, with blanks around them; the name
and the wrappers of the type, outermost first, are those of the derivation. Every
other text is an error. The written form of the type is the text without its
blanks, and every type without two marks in a row is read from its written form,
however many wrappers it has. -/
theorem ofText_exact (text : Bytes) :
    (∀ type, ofText text = .ok type ↔
      ∃ words, Derives type.leaf type.wrappers words ∧ Spaced words text) ∧
    ((∃ part, ofText text = .error part) ↔
      ¬ ∃ name wrappers words, Derives name wrappers words ∧ Spaced words text) ∧
    (∀ type, ofText text = .ok type → type.text = text.filter fun b => !isSpace b) ∧
    ∀ name wrappers, isName name = true → ¬ [Wrapper.nonNull, .nonNull] <:+: wrappers →
      ofText (TypeExpr.wrapped name wrappers).text = .ok (.wrapped name wrappers) := by
  refine ⟨fun type => ofText_ok, ⟨?_, ?_⟩, ?_, ?_⟩
  · rintro ⟨part, herror⟩ ⟨name, wrappers, words, hwords, hspaced⟩
    have hok : ofText text = .ok (.wrapped name wrappers) :=
      ofText_ok.mpr ⟨words, by simpa using hwords, hspaced⟩
    rw [hok] at herror
    cases herror
  · intro hnone
    cases hread : ofText text with
    | error part => exact ⟨part, rfl⟩
    | ok type =>
      obtain ⟨words, hwords, hspaced⟩ := ofText_ok.mp hread
      exact absurd ⟨_, _, words, hwords, hspaced⟩ hnone
  · intro type hread
    obtain ⟨words, hwords, hspaced⟩ := ofText_ok.mp hread
    rw [hspaced.filter_eq hwords.solid, ← hwords.text_eq, wrapped_wrappers]
  · intro name wrappers hname hmarks
    obtain ⟨words, hwords⟩ := Derives.exists_words hname hmarks
    rw [ofText_ok, hwords.text_eq]
    exact ⟨words, by simpa using hwords, spaced_flatten words⟩

theorem ofText_exact_matrix :
    (∃ words, Derives (utf8 "Int") [.nonNull, .list, .list, .nonNull] words ∧
      Spaced words (utf8 " [ [ Int! ]\n]\t! ")) ∧
    ofText (TypeExpr.wrapped (utf8 "Int") [.nonNull, .list, .list, .nonNull]).text =
      .ok (.wrapped (utf8 "Int") [.nonNull, .list, .list, .nonNull]) := by
  obtain ⟨hwords, -, -, hwritten⟩ := ofText_exact (utf8 " [ [ Int! ]\n]\t! ")
  have hread : ofText (utf8 " [ [ Int! ]\n]\t! ") =
      .ok (.wrapped (utf8 "Int") [.nonNull, .list, .list, .nonNull]) := by decide +kernel
  exact ⟨(hwords _).mp hread, hwritten (utf8 "Int") _ (by decide) (by decide)⟩

end WrittenType

end GraphQL
