/-
GraphQL.Proofs.Reading.LongestNumber — a number is the longest numeral, and what
follows it is looked at once.

  §1 Numerals — the longest numeral that begins a text.
  §2 Extents  — a byte that may follow one of its digits, and one more digit.
  §3 Cursors  — how far a reading gets is told by what it leaves.
  §4 Numbers  — when a number is read, what it denotes, and where it ends.

A reading never goes back: at a point or at the letter of an exponent it wants
digits, and fails without them. That agrees with the longest numeral because the
byte after that may not be a point or the start of a name. Where the longest
numeral is followed by neither, no part of a longer one begins there at all.
-/
import GraphQL.Proofs.Number.Denotation
import GraphQL.Proofs.Reading.Invariant

namespace GraphQL

/-! ## §1 Numerals -/

namespace Numeral

/-- The numeral begins the text, and none that begins it is longer. -/
structure LongestIn (text : Bytes) (n : Numeral) : Prop where
  written : n.Written
  begins : n.text <+: text
  longest : ∀ other : Numeral, other.Written → other.text <+: text →
    other.text.length ≤ n.text.length

/-- No byte that could begin a name, and no point, comes after the numeral. -/
def EndsIn (text : Bytes) (n : Numeral) : Prop :=
  ∀ b ∈ text[n.text.length]?, isNameStart b = false ∧ b ≠ ascii '.'

/-- A whole number has 64 bits. Any other numeral is subject to the rule of the nearest
double (`toBinary64?`). -/
def InRange (n : Numeral) : Prop :=
  if n.fraction = none ∧ n.exponent = none then
    -2 ^ 63 ≤ signedValue n.negative n.whole ∧ signedValue n.negative n.whole ≤ 2 ^ 63 - 1
  else n.toBinary64?.isSome = true

/-- The literal that the numeral denotes at its position. -/
inductive Denotes (location : Location) : Numeral → Literal → Prop
  | int {n : Numeral} {value : Int64} : n.fraction = none → n.exponent = none →
    value.toInt = signedValue n.negative n.whole → Denotes location n (.int location value)
  | float {n : Numeral} {value : Binary64} : ¬(n.fraction = none ∧ n.exponent = none) →
    n.toBinary64? = some value → Denotes location n (.float location value)

theorem isInteger_iff (n : Numeral) :
    n.isInteger = true ↔ n.fraction = none ∧ n.exponent = none := by
  simp [isInteger]

/-! ## §2 Extents -/

/-- The byte may stand in a numeral after a digit. -/
def Continues (b : UInt8) : Prop := isNameByte b = true ∨ b = ascii '.'

/-- After each digit of the text there is a byte that may follow one. -/
abbrev Continued (text : Bytes) : Prop :=
  text.IsChain fun a b => isDigit a = true → Continues b

theorem continues_of_digit {b : UInt8} (h : isDigit b = true) : Continues b :=
  .inl (by simp [isNameByte, h])

theorem continued_of_digits {digits : Bytes} (h : ∀ d ∈ digits, isDigit d = true) :
    Continued digits := by
  apply List.Pairwise.isChain
  exact List.pairwise_of_forall_mem_list fun _ _ b hb _ => continues_of_digit (h b hb)

theorem Continued.append {first second : Bytes} (hfirst : Continued first)
    (hsecond : Continued second) (h : ∀ b ∈ second.head?, Continues b) :
    Continued (first ++ second) :=
  List.isChain_append.2 ⟨hfirst, hsecond, fun _ _ b hb _ => h b hb⟩

/-- Nothing is said of the byte after one that is no digit. -/
theorem Continued.cons {b : UInt8} {rest : Bytes} (hb : isDigit b = false)
    (h : Continued rest) : Continued (b :: rest) :=
  List.isChain_cons.2 ⟨fun _ _ hdigit => absurd hdigit (by simp [hb]), h⟩

theorem Exponent.Written.continued {e : Exponent} (h : e.Written) :
    Continued e.text ∧ ∀ b ∈ e.text.head?, Continues b := by
  obtain ⟨letter, sign, digits⟩ := e
  have hdigits := continued_of_digits h.digits.2
  have hsigned : Continued (sign.toList ++ digits) := by
    cases sign with
    | none => exact hdigits
    | some s =>
      have hs : isDigit s = false := by
        rcases h.sign s rfl with rfl | rfl <;> decide
      exact hdigits.cons hs
  have hletter : isDigit letter = false ∧ Continues letter := by
    rcases h.letter with rfl | rfl <;> exact ⟨by decide, .inl (by decide)⟩
  refine ⟨?_, fun b hb => ?_⟩
  · rw [Exponent.text, List.cons_append]
    exact hsigned.cons hletter.1
  · obtain rfl : letter = b := by simpa [Exponent.text] using hb
    exact hletter.2

theorem Written.continued {n : Numeral} (h : n.Written) : Continued n.text := by
  obtain ⟨negative, whole, fraction, exponent⟩ := n
  have hexponent : Continued (Reading.exponentText exponent) ∧
      ∀ b ∈ (Reading.exponentText exponent).head?, Continues b := by
    cases exponent with
    | none => exact ⟨.nil, by simp [Reading.exponentText]⟩
    | some e => exact (h.exponent e rfl).continued
  have hfraction : Continued (Reading.fractionText fraction ++ Reading.exponentText exponent) ∧
      ∀ b ∈ (Reading.fractionText fraction ++ Reading.exponentText exponent).head?,
        Continues b := by
    cases fraction with
    | none => exact hexponent
    | some digits =>
      have hdigits := continued_of_digits (h.fraction digits rfl).2
      refine ⟨(hdigits.append hexponent.1 hexponent.2).cons (by decide), fun b hb => .inr ?_⟩
      simpa [Reading.fractionText, eq_comm] using hb
  have hwhole := (continued_of_digits h.whole.2).append hfraction.1 hfraction.2
  rw [Reading.numeral_text]
  cases negative with
  | true => exact hwhole.cons (by decide)
  | false => exact hwhole

/-- One digit more at the end. -/
def extend (n : Numeral) (digit : UInt8) : Numeral :=
  match n with
  | ⟨negative, whole, fraction, some e⟩ =>
    ⟨negative, whole, fraction, some { e with digits := e.digits ++ [digit] }⟩
  | ⟨negative, whole, some digits, none⟩ => ⟨negative, whole, some (digits ++ [digit]), none⟩
  | ⟨negative, whole, none, none⟩ => ⟨negative, whole ++ [digit], none, none⟩

theorem text_extend (n : Numeral) (digit : UInt8) : (n.extend digit).text = n.text ++ [digit] := by
  obtain ⟨negative, whole, fraction, exponent⟩ := n
  cases negative <;> cases exponent <;> cases fraction <;> simp [extend, text, Exponent.text]

theorem isDigits_concat {digits : Bytes} {digit : UInt8} (h : IsDigits digits)
    (hdigit : isDigit digit = true) : IsDigits (digits ++ [digit]) :=
  ⟨by simp, by simpa [or_imp, forall_and] using ⟨h.2, hdigit⟩⟩

theorem Written.extend {n : Numeral} {digit : UInt8} (h : n.Written)
    (hdigit : isDigit digit = true) : (n.extend digit).Written := by
  obtain ⟨negative, whole, fraction, exponent⟩ := n
  obtain ⟨hwhole, hfraction, hexponent⟩ := h
  cases exponent with
  | some e =>
    obtain ⟨hletter, hsign, hdigits⟩ := hexponent e rfl
    exact ⟨hwhole, hfraction, by
      simpa [Numeral.extend] using ⟨hletter, hsign, isDigits_concat hdigits hdigit⟩⟩
  | none =>
    cases fraction with
    | some digits =>
      exact ⟨hwhole, by simpa [Numeral.extend] using isDigits_concat (hfraction _ rfl) hdigit,
        by simp [Numeral.extend]⟩
    | none =>
      exact ⟨isDigits_concat hwhole hdigit, by simp [Numeral.extend], by simp [Numeral.extend]⟩

/-- The last byte of the text is a digit. -/
def EndsWithDigit (text : Bytes) : Prop := ∃ last ∈ text.getLast?, isDigit last = true

theorem endsWithDigit_of_digits {digits : Bytes} (h : IsDigits digits) : EndsWithDigit digits :=
  ⟨_, List.getLast?_eq_some_getLast h.1, h.2 _ (List.getLast_mem h.1)⟩

theorem EndsWithDigit.append {second : Bytes} (first : Bytes) (h : EndsWithDigit second) :
    EndsWithDigit (first ++ second) := by
  obtain ⟨last, hlast, hdigit⟩ := h
  refine ⟨last, ?_, hdigit⟩
  rw [List.getLast?_append, Option.mem_def.1 hlast]
  rfl

theorem Written.endsWithDigit {n : Numeral} (h : n.Written) : EndsWithDigit n.text := by
  obtain ⟨negative, whole, fraction, exponent⟩ := n
  rw [Reading.numeral_text]
  apply EndsWithDigit.append
  cases exponent with
  | some e =>
    have hdigits := endsWithDigit_of_digits (h.exponent e rfl).digits
    exact ((hdigits.append (e.letter :: e.sign.toList)).append _).append _
  | none =>
    simp only [Reading.exponentText, List.append_nil]
    cases fraction with
    | some digits =>
      exact ((endsWithDigit_of_digits (h.fraction digits rfl)).append [ascii '.']).append _
    | none =>
      simpa only [Reading.fractionText, List.append_nil] using endsWithDigit_of_digits h.whole

/-- A numeral is the longest one where the byte after it may not follow a digit. -/
theorem longestIn_of_afterNumber {n : Numeral} {rest : Bytes} (h : n.Written)
    (hrest : Reading.AfterNumber rest) : n.LongestIn (n.text ++ rest) := by
  refine ⟨h, List.prefix_append .., fun other hother hbegins => ?_⟩
  by_contra hlonger
  obtain ⟨more, hmore⟩ := List.prefix_of_prefix_length_le (List.prefix_append n.text rest)
    hbegins (by omega)
  obtain ⟨last, hlast, hdigit⟩ := h.endsWithDigit
  cases more with
  | nil =>
    rw [← hmore] at hlonger
    simp at hlonger
  | cons b more =>
    -- The other numeral goes on after the last digit of this one.
    have hcontinued := hother.continued
    rw [← hmore, Continued, List.isChain_append] at hcontinued
    have hb : Continues b := hcontinued.2.2 last hlast b rfl hdigit
    rw [← hmore, List.prefix_append_right_inj] at hbegins
    obtain ⟨after, rfl⟩ := hbegins
    obtain ⟨hname, hpoint⟩ := hrest b rfl
    rcases hb with hb | hb
    · exact absurd hb (by simp [hname])
    · exact hpoint hb

/-- No digit comes after the longest numeral. -/
theorem LongestIn.afterNumber {n : Numeral} {rest : Bytes} (h : n.LongestIn (n.text ++ rest))
    (hends : n.EndsIn (n.text ++ rest)) : Reading.AfterNumber rest := by
  intro b hb
  obtain ⟨more, rfl⟩ := List.head?_eq_some_iff.1 hb
  obtain ⟨hstart, hpoint⟩ := hends b (by simp)
  refine ⟨?_, hpoint⟩
  rw [isNameByte, hstart, Bool.false_or, Bool.eq_false_iff]
  intro hdigit
  have hlonger := h.longest (n.extend b) (h.written.extend hdigit) (by
    rw [text_extend, List.append_cons n.text b more]
    exact List.prefix_append ..)
  rw [text_extend, List.length_append, List.length_singleton] at hlonger
  omega

end Numeral

namespace Reading

/-! ## §3 Cursors -/

/-- To be as many bytes further on than a cursor as fewer bytes are left. -/
def stepping (start : Cursor) : Invariant where
  holds c := c.rest.length ≤ start.rest.length ∧
    c = Cursor.next^[start.rest.length - c.rest.length] start
  after := by
    rintro b rest location ⟨hlength, hcursor⟩
    have hcount : start.rest.length - rest.length =
        start.rest.length - (b :: rest).length + 1 := by
      rw [List.length_cons] at hlength ⊢
      omega
    refine ⟨Nat.le_of_succ_le hlength, ?_⟩
    rw [hcount, Function.iterate_succ_apply', ← hcursor]
    rfl

/-- A reading that goes byte by byte ends as many bytes further on as its text has. -/
theorem cursor_of_stays {α : Type} {r : Reading α} {c c' : Cursor} {a : α} {text : Bytes}
    (hr : Stays (stepping c) r) (hrun : r.run c = .ok (a, c')) (htext : c.rest = text ++ c'.rest) :
    c' = Cursor.next^[text.length] c := by
  have hstart : (stepping c).holds c := ⟨Nat.le_refl _, by rw [Nat.sub_self]; rfl⟩
  obtain ⟨-, -, hcursor⟩ := hr.of_ok hstart hrun
  have hcount : c.rest.length - c'.rest.length = text.length := by
    rw [htext, List.length_append, Nat.add_sub_cancel]
  rwa [hcount] at hcursor

/-! ## §4 Numbers -/

theorem int64?_isSome_iff (n : Int) : (int64? n).isSome = true ↔ -2 ^ 63 ≤ n ∧ n ≤ 2 ^ 63 - 1 := by
  have hfits : fitsInt64 n = true ↔ -2 ^ 63 ≤ n ∧ n ≤ 2 ^ 63 - 1 := by
    simp only [fitsInt64, Bool.and_eq_true, decide_eq_true_eq]
    omega
  rw [← hfits, int64?]
  split <;> simp_all

/-- The literal of a numeral is what the numeral denotes. -/
theorem numberOf_ok {location : Location} {n : Numeral} {literal : Literal} {c c' : Cursor} :
    (numberOf location n).run c = .ok (literal, c') ↔ n.Denotes location literal ∧ c = c' := by
  unfold numberOf
  constructor
  · intro h
    split at h
    · rename_i hinteger
      obtain ⟨hfraction, hexponent⟩ := n.isInteger_iff.1 hinteger
      split at h
      · rename_i value hvalue
        obtain ⟨rfl, rfl⟩ := pure_ok.1 h
        rw [int64?_eq_some, n.wholeValue_eq] at hvalue
        exact ⟨.int hfraction hexponent hvalue.symm, rfl⟩
      · exact (failAt_ok.1 h).elim
    · rename_i hinteger
      rw [n.isInteger_iff] at hinteger
      split at h
      · rename_i value hvalue
        obtain ⟨rfl, rfl⟩ := pure_ok.1 h
        exact ⟨.float hinteger hvalue, rfl⟩
      · exact (failAt_ok.1 h).elim
  · rintro ⟨hdenotes, rfl⟩
    cases hdenotes with
    | int hfraction hexponent hvalue =>
      rw [if_pos (n.isInteger_iff.2 ⟨hfraction, hexponent⟩), n.wholeValue_eq,
        int64?_eq_some.2 hvalue.symm]
      rfl
    | float hinteger hvalue =>
      rw [if_neg (by rwa [n.isInteger_iff]), hvalue]
      rfl

/-- A numeral denotes a literal exactly if it is in its range. -/
theorem exists_denotes_iff {location : Location} {n : Numeral} :
    (∃ literal, n.Denotes location literal) ↔ n.InRange := by
  unfold Numeral.InRange
  constructor
  · rintro ⟨literal, hdenotes⟩
    cases hdenotes with
    | int hfraction hexponent hvalue =>
      rw [if_pos ⟨hfraction, hexponent⟩, ← int64?_isSome_iff, int64?_eq_some.2 hvalue.symm]
      rfl
    | float hinteger hvalue =>
      rw [if_neg hinteger, hvalue]
      rfl
  · intro h
    split at h
    · rename_i hinteger
      obtain ⟨value, hvalue⟩ := Option.isSome_iff_exists.1 ((int64?_isSome_iff _).2 h)
      exact ⟨_, .int hinteger.1 hinteger.2 (int64?_eq_some.1 hvalue).symm⟩
    · rename_i hinteger
      obtain ⟨value, hvalue⟩ := Option.isSome_iff_exists.1 h
      exact ⟨_, .float hinteger hvalue⟩

/-- A numeral is read exactly where it is the longest one and is not followed by a byte that
could begin a name, nor by a point; it is read up to its end. -/
theorem numeral_ok {c c' : Cursor} {n : Numeral} :
    numeral.run c = .ok (n, c') ↔
      n.LongestIn c.rest ∧ n.EndsIn c.rest ∧ c' = Cursor.next^[n.text.length] c := by
  constructor
  · intro hrun
    obtain ⟨hsplit, hwritten, hafter⟩ := split_of_numeral hrun
    have hcursor := cursor_of_stays Keeps.numeral.stays hrun hsplit
    rw [hsplit]
    refine ⟨Numeral.longestIn_of_afterNumber hwritten hafter, fun b hb => ?_, hcursor⟩
    have hhead : b ∈ c'.rest.head? := by
      simpa [List.getElem?_append_right, List.head?_eq_getElem?] using hb
    obtain ⟨hname, hpoint⟩ := hafter b hhead
    exact ⟨(Bool.or_eq_false_iff.1 hname).1, hpoint⟩
  · rintro ⟨hlongest, hends, rfl⟩
    obtain ⟨rest, hrest⟩ := hlongest.begins
    rw [← hrest] at hlongest hends
    obtain ⟨found, after, hrun, rfl, rfl⟩ :=
      takes_numeral hlongest.written (hlongest.afterNumber hends) c.location
    rw [hrest] at hrun
    rw [← cursor_of_stays Keeps.numeral.stays hrun hrest.symm]
    exact hrun

/-- A number is read exactly where the longest numeral is not followed by a byte that could
begin a name, nor by a point. It is read up to the end of that numeral, and is the integer of
its digits, or the double nearest to it where a fraction or an exponent is written. No other
condition is there but the range: 64 bits with a sign, for any number of digits, or what is
required of a double. -/
theorem run_number_exact (c : Cursor) :
    (∀ literal after, number.run c = .ok (literal, after) ↔
      ∃ n : Numeral, n.LongestIn c.rest ∧ n.EndsIn c.rest ∧ n.Denotes c.location literal ∧
        after = Cursor.next^[n.text.length] c) ∧
    ((∃ result, number.run c = .ok result) ↔
      ∃ n : Numeral, n.LongestIn c.rest ∧ n.EndsIn c.rest ∧ n.InRange) := by
  have hexact : ∀ literal after, number.run c = .ok (literal, after) ↔
      ∃ n : Numeral, n.LongestIn c.rest ∧ n.EndsIn c.rest ∧ n.Denotes c.location literal ∧
        after = Cursor.next^[n.text.length] c := by
    intro literal after
    simp only [number, bind_ok, position_ok, numeral_ok, numberOf_ok]
    constructor
    · rintro ⟨_, _, ⟨rfl, rfl⟩, n, _, ⟨hlongest, hends, rfl⟩, hdenotes, rfl⟩
      exact ⟨n, hlongest, hends, hdenotes, rfl⟩
    · rintro ⟨n, hlongest, hends, hdenotes, rfl⟩
      exact ⟨_, _, ⟨rfl, rfl⟩, n, _, ⟨hlongest, hends, rfl⟩, hdenotes, rfl⟩
  refine ⟨hexact, ?_, ?_⟩
  · rintro ⟨⟨literal, after⟩, hrun⟩
    obtain ⟨n, hlongest, hends, hdenotes, -⟩ := (hexact literal after).1 hrun
    exact ⟨n, hlongest, hends, exists_denotes_iff.1 ⟨literal, hdenotes⟩⟩
  · rintro ⟨n, hlongest, hends, hrange⟩
    obtain ⟨literal, hdenotes⟩ := exists_denotes_iff.2 hrange
    exact ⟨_, (hexact literal _).2 ⟨n, hlongest, hends, hdenotes, rfl⟩⟩

end Reading

end GraphQL
