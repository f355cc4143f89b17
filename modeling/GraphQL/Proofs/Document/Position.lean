/-
GraphQL.Proofs.Document.Position — the position of each offset in a text.

  §1 Line ends  — where the lines of a text end.
  §2 Positions  — counted from the line ends, and one byte further on.

A line ends after a line feed, after a carriage return and a line feed together,
and after a carriage return alone. The position of an offset counts the ends up to
it, so it is told by the text alone; `of_succ` is what a reader does byte by byte.
-/
import GraphQL.Document.Location

namespace GraphQL.Location

/-! ## §1 Line ends -/

/-- A line ends at an offset, between the byte before it and the byte after it. Where
a line feed follows a carriage return, the line ends after both. -/
def endsAt (text : Bytes) : Nat → Bool
  | 0 => false
  | before + 1 => text[before]? == some (ascii '\n') ||
      (text[before]? == some (ascii '\r') && text[before + 1]? != some (ascii '\n'))

/-- The offsets at which lines end, up to and including `offset`. -/
def lineEnds (text : Bytes) (offset : Nat) : List Nat :=
  (List.range (offset + 1)).filter (endsAt text)

theorem lineEnds_succ (text : Bytes) (offset : Nat) :
    lineEnds text (offset + 1) =
      lineEnds text offset ++ if endsAt text (offset + 1) then [offset + 1] else [] := by
  rw [lineEnds, List.range_succ, List.filter_append, ← lineEnds]
  by_cases h : endsAt text (offset + 1) = true <;> simp [h]

theorem le_of_mem_lineEnds {text : Bytes} {offset lineEnd : Nat}
    (h : lineEnd ∈ lineEnds text offset) : lineEnd ≤ offset := by
  obtain ⟨hrange, -⟩ := List.mem_filter.mp h
  exact Nat.le_of_lt_succ (List.mem_range.mp hrange)

/-- The offset at which the line of `offset` begins: the last line end, or the start of
the text. -/
def lineStart (text : Bytes) (offset : Nat) : Nat := (lineEnds text offset).getLast?.getD 0

theorem lineStart_le (text : Bytes) (offset : Nat) : lineStart text offset ≤ offset := by
  rw [lineStart]
  cases h : (lineEnds text offset).getLast? with
  | none => exact Nat.zero_le _
  | some lineEnd => exact le_of_mem_lineEnds (List.mem_of_getLast? h)

/-- A byte ends a line exactly if a line ends after it. -/
theorem endsAt_succ {before : Bytes} {b : UInt8} {rest : Bytes} :
    endsAt (before ++ b :: rest) (before.length + 1) = endsLine b rest := by
  have hafter : (before ++ b :: rest)[before.length + 1]? = rest[0]? := by
    rw [List.getElem?_append_right (Nat.le_succ _)]
    simp
  simp [endsAt, endsLine, List.head?_eq_getElem?, hafter]

/-! ## §2 Positions -/

/-- The position of the byte at an offset, or of the end of the text: a line for each
line end up to the offset, a column for each byte since the last of them. -/
def of (text : Bytes) (offset : Nat) : Location :=
  ⟨1 + (lineEnds text offset).length, 1 + (offset - lineStart text offset : Nat)⟩

@[simp] theorem of_zero (text : Bytes) : of text 0 = start := rfl

theorem of_succ (before : Bytes) (b : UInt8) (rest : Bytes) :
    of (before ++ b :: rest) (before.length + 1) =
      (of (before ++ b :: rest) before.length).after b rest := by
  have hle := lineStart_le (before ++ b :: rest) before.length
  simp only [of, after, lineStart, lineEnds_succ, endsAt_succ] at hle ⊢
  by_cases h : endsLine b rest = true
  · simp [h]
    omega
  · simp [h]
    omega

-- A pair ends one line, a carriage return alone ends another one.
example : of (utf8 "a\r\nb\rcd") 6 = ⟨3, 2⟩ := by decide

/-- The position at which the last part of a text begins. -/
def before (text rest : Bytes) : Location := of text (text.length - rest.length)

theorem before_cons {text : Bytes} {b : UInt8} {rest : Bytes} (h : b :: rest <:+ text) :
    before text rest = (before text (b :: rest)).after b rest := by
  obtain ⟨earlier, rfl⟩ := h
  have hrest : (earlier ++ b :: rest).length - rest.length = earlier.length + 1 := by
    simp only [List.length_append, List.length_cons]
    omega
  have hcons : (earlier ++ b :: rest).length - (b :: rest).length = earlier.length := by
    simp only [List.length_append]
    omega
  rw [before, before, hrest, hcons, of_succ]

/-- The position is that of an offset in the text, or of its end. -/
def IsIn (text : Bytes) (location : Location) : Prop :=
  ∃ offset ≤ text.length, location = of text offset

end GraphQL.Location
