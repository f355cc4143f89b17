/-
GraphQL.Proofs.Grammar.Layout — token sequences laid out as text.

  §1 Ignored text  — what may stand between tokens, and at the end of a text.
  §2 Words         — how words begin, and that none is empty.
  §3 Layouts       — `Laid`: tokens with ignored text before each of them, no
                     word being continued by what follows it; `Standing`: the
                     same with nothing before the first word.
  §4 Readings      — `Read`: a layout with ignored text after it as well, the
                     form that composes; `Laid` is the form that ends tightly.

The relations speak of a text and of the rest that is left of it, so layouts
of parts are put together by transitivity, and what follows a word is known.
-/
import GraphQL.Proofs.Grammar.Token

namespace GraphQL

open Reading

/-! ## §1 Ignored text -/

/-- Blanks and comments, every comment closed by a line end. -/
inductive Ignored : Bytes → Prop where
  | nil : Ignored []
  | blank {b : UInt8} {rest : Bytes} : isBlank b = true → Ignored rest → Ignored (b :: rest)
  | comment {body rest : Bytes} {lineEnd : UInt8} : (∀ c ∈ body, isLineEnd c = false) →
    isLineEnd lineEnd = true → Ignored rest → Ignored (ascii '#' :: (body ++ lineEnd :: rest))

/-- Ignored text up to the end of the input, where a comment may be open. -/
inductive Trailing : Bytes → Prop where
  | closed {text : Bytes} : Ignored text → Trailing text
  | comment {text body : Bytes} : Ignored text → (∀ c ∈ body, isLineEnd c = false) →
    Trailing (text ++ ascii '#' :: body)

theorem Ignored.append {first second : Bytes} (h₁ : Ignored first) (h₂ : Ignored second) :
    Ignored (first ++ second) := by
  induction h₁ with
  | nil => exact h₂
  | blank hb _ ih => exact .blank hb ih
  | comment hbody hend _ ih =>
    rw [List.cons_append, List.append_assoc, List.cons_append]
    exact .comment hbody hend ih

theorem Trailing.prepend {gap text : Bytes} (hgap : Ignored gap) (h : Trailing text) :
    Trailing (gap ++ text) := by
  cases h with
  | closed h => exact .closed (hgap.append h)
  | comment h hbody =>
    rw [← List.append_assoc]
    exact .comment (hgap.append h) hbody

/-- Passing over `text` up to `rest`: ignored text lies between, and a comment is
left open only when nothing follows. -/
def Gap (text rest : Bytes) : Prop :=
  (∃ gap, text = gap ++ rest ∧ Ignored gap) ∨ (rest = [] ∧ Trailing text)

theorem Gap.refl (text : Bytes) : Gap text text := .inl ⟨[], rfl, .nil⟩

theorem Gap.prepend {gap text rest : Bytes} (hgap : Ignored gap) (h : Gap text rest) :
    Gap (gap ++ text) rest := by
  rcases h with ⟨more, rfl, hmore⟩ | ⟨hrest, htext⟩
  · exact .inl ⟨gap ++ more, by simp, hgap.append hmore⟩
  · exact .inr ⟨hrest, htext.prepend hgap⟩

theorem Gap.trans {text middle rest : Bytes} (h₁ : Gap text middle) (h₂ : Gap middle rest) :
    Gap text rest := by
  rcases h₁ with ⟨gap, rfl, hgap⟩ | ⟨rfl, htext⟩
  · exact h₂.prepend hgap
  · have hrest : rest = [] := by
      rcases h₂ with ⟨gap, hnil, -⟩ | ⟨hrest, -⟩
      · exact (List.append_eq_nil_iff.mp hnil.symm).2
      · exact hrest
    exact .inr ⟨hrest, htext⟩

/-- Something follows only a closed gap. -/
theorem Gap.exists_ignored {text rest : Bytes} (h : Gap text rest) (hne : rest ≠ []) :
    ∃ gap, text = gap ++ rest ∧ Ignored gap := by
  rcases h with h | ⟨hrest, -⟩
  · exact h
  · exact absurd hrest hne

theorem Gap.trailing {text : Bytes} (h : Gap text []) : Trailing text := by
  rcases h with ⟨gap, rfl, hgap⟩ | ⟨-, htext⟩
  · simpa using Trailing.closed hgap
  · exact htext

theorem Gap.length_le {text rest : Bytes} (h : Gap text rest) : rest.length ≤ text.length := by
  rcases h with ⟨gap, rfl, -⟩ | ⟨rfl, -⟩ <;> simp

/-! ## §2 Words -/

/-- A word begins with a byte that its token may begin with. -/
theorem Token.Spells.cons {t : Token} {word : Bytes} (h : t.Spells word) :
    ∃ b rest, word = b :: rest ∧ t.BeginsWith b := by
  have numeral {n : Numeral} (hn : n.Written) :
      ∃ b rest, n.text = b :: rest ∧ (b = ascii '-' ∨ isDigit b = true) := by
    obtain ⟨hne, hdigits⟩ := hn.whole
    obtain ⟨d, ds, hw⟩ := List.exists_cons_of_ne_nil hne
    unfold Numeral.text
    cases n.negative with
    | true => exact ⟨_, _, rfl, .inl rfl⟩
    | false => exact ⟨d, _, by rw [hw]; rfl, .inr (hdigits d (by simp [hw]))⟩
  cases h with
  | punctuator sign => exact ⟨_, _, rfl, rfl⟩
  | name _ h =>
    cases word with
    | nil => cases h
    | cons b rest => exact ⟨b, rest, rfl, (Bool.and_eq_true_iff.mp h).1⟩
  | int value n hn _ _ => exact numeral hn
  | float value n hn _ _ => exact numeral hn
  | string characters body _ => exact ⟨_, _, rfl, rfl⟩

theorem Token.Spells.ne_nil {t : Token} {word : Bytes} (h : t.Spells word) : word ≠ [] := by
  obtain ⟨b, rest, rfl, -⟩ := h.cons
  simp

/-! ## §3 Layouts -/

/-- `text` up to `rest` is the tokens, each one's word with ignored text before
it; no word is continued by what follows it, and `rest` begins right after the
last word. -/
def Laid : List Token → Bytes → Bytes → Prop
  | [], text, rest => text = rest
  | t :: ts, text, rest => ∃ gap word middle, text = gap ++ (word ++ middle) ∧ Ignored gap ∧
      t.Spells word ∧ t.StopsAt middle ∧ Laid ts middle rest

/-- `text` is the tokens, with ignored text before, between and after them. -/
def LaidOut (tokens : List Token) (text : Bytes) : Prop :=
  ∃ tail, Laid tokens text tail ∧ Trailing tail

@[simp] theorem laid_nil {text rest : Bytes} : Laid [] text rest ↔ text = rest := Iff.rfl

theorem laid_append {us : List Token} {text rest : Bytes} : ∀ {ts : List Token},
    Laid (ts ++ us) text rest ↔ ∃ middle, Laid ts text middle ∧ Laid us middle rest := by
  intro ts
  induction ts generalizing text with
  | nil => simp
  | cons t ts ih =>
    simp only [List.cons_append, Laid, ih]
    constructor
    · intro h
      obtain ⟨gap, word, mid, htext, hgap, hword, hstop, middle, hts, hus⟩ := h
      exact ⟨middle, ⟨gap, word, mid, htext, hgap, hword, hstop, hts⟩, hus⟩
    · rintro ⟨middle, ⟨gap, word, mid, htext, hgap, hword, hstop, hts⟩, hus⟩
      exact ⟨gap, word, mid, htext, hgap, hword, hstop, middle, hts, hus⟩

theorem Laid.prepend {t : Token} {ts : List Token} {text middle rest : Bytes}
    (hgap : Gap text middle) (h : Laid (t :: ts) middle rest) : Laid (t :: ts) text rest := by
  obtain ⟨gap, word, mid, rfl, hg, hword, hstop, hts⟩ := h
  have hne : gap ++ (word ++ mid) ≠ [] := by
    simp [hword.ne_nil]
  obtain ⟨before, rfl, hbefore⟩ := hgap.exists_ignored hne
  exact ⟨before ++ gap, word, mid, by simp, hbefore.append hg, hword, hstop, hts⟩

theorem Laid.length_le {ts : List Token} {text rest : Bytes} (h : Laid ts text rest) :
    ts.length + rest.length ≤ text.length := by
  induction ts generalizing text with
  | nil => simp [laid_nil.mp h]
  | cons t ts ih =>
    obtain ⟨gap, word, mid, rfl, -, hword, -, hts⟩ := h
    have := ih hts
    have := List.length_pos_iff.mpr hword.ne_nil
    simp only [List.length_append, List.length_cons]
    omega

/-- A layout with nothing before the first word. -/
def Standing : List Token → Bytes → Bytes → Prop
  | [], text, rest => text = rest
  | t :: ts, text, rest => ∃ word middle, text = word ++ middle ∧ t.Spells word ∧
      t.StopsAt middle ∧ Laid ts middle rest

theorem Standing.laid {ts : List Token} {text rest : Bytes} (h : Standing ts text rest) :
    Laid ts text rest := by
  cases ts with
  | nil => exact h
  | cons t ts =>
    obtain ⟨word, middle, rfl, hword, hstop, hts⟩ := h
    exact ⟨[], word, middle, rfl, .nil, hword, hstop, hts⟩

theorem Standing.head? {t : Token} {ts : List Token} {text rest : Bytes}
    (h : Standing (t :: ts) text rest) : ∃ b, text.head? = some b ∧ t.BeginsWith b := by
  obtain ⟨word, middle, rfl, hword, -⟩ := h
  obtain ⟨b, more, rfl, hb⟩ := hword.cons
  exact ⟨b, rfl, hb⟩

theorem Laid.exists_standing {t : Token} {ts : List Token} {text rest : Bytes}
    (h : Laid (t :: ts) text rest) :
    ∃ gap after, text = gap ++ after ∧ Ignored gap ∧ Standing (t :: ts) after rest := by
  obtain ⟨gap, word, middle, rfl, hgap, hword, hstop, hts⟩ := h
  exact ⟨gap, word ++ middle, rfl, hgap, word, middle, rfl, hword, hstop, hts⟩

/-! ## §4 Readings -/

/-- `text` up to `rest` is the tokens, with ignored text before each of them and
after the last. -/
def Read (ts : List Token) (text rest : Bytes) : Prop :=
  ∃ middle, Laid ts text middle ∧ Gap middle rest

theorem Laid.read {ts : List Token} {text rest : Bytes} (h : Laid ts text rest) :
    Read ts text rest := ⟨rest, h, .refl rest⟩

theorem Gap.read {text rest : Bytes} (h : Gap text rest) : Read [] text rest := ⟨text, rfl, h⟩

theorem Read.append {ts us : List Token} {text middle rest : Bytes} (h₁ : Read ts text middle)
    (h₂ : Read us middle rest) : Read (ts ++ us) text rest := by
  obtain ⟨mid₁, hts, hgap₁⟩ := h₁
  obtain ⟨mid₂, hus, hgap₂⟩ := h₂
  cases us with
  | nil =>
    obtain rfl := laid_nil.mp hus
    rw [List.append_nil]
    exact ⟨mid₁, hts, hgap₁.trans hgap₂⟩
  | cons u us => exact ⟨mid₂, laid_append.mpr ⟨mid₁, hts, hus.prepend hgap₁⟩, hgap₂⟩

theorem Read.length_lt {ts : List Token} {text rest : Bytes} (h : Read ts text rest)
    (hne : ts ≠ []) : rest.length < text.length := by
  obtain ⟨mid, hts, hgap⟩ := h
  have hlaid := hts.length_le
  have hpos := List.length_pos_iff.mpr hne
  have hle := hgap.length_le
  omega

end GraphQL
