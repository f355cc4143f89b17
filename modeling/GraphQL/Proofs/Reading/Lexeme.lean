/-
GraphQL.Proofs.Reading.Lexeme — punctuators, names and numbers are read as
their words.

  §1 Punctuators  — required ones and optional ones.
  §2 Names        — the longest run of name bytes.
  §3 Numerals     — each part of a numeral, and the byte after it.
  §4 Numbers      — integers within their range, and doubles.

Each reading has two lemmas: what a success says about the text, and that a word
of the token is taken.
-/
import GraphQL.Proofs.Reading.Run
import GraphQL.Proofs.Grammar.Sequence

namespace GraphQL.Reading

/-! ## §1 Punctuators -/

theorem gap_of_skipBlanks {c c' : Cursor} {u : Unit} (h : skipBlanks.run c = .ok (u, c')) :
    Gap c.rest c'.rest ∧ Settled c'.rest := by
  obtain rfl := skipBlanks_ok.mp h
  exact ⟨skipFrom_gap c.rest false c.location [] (by simp), skipFrom_settled _ _ _⟩

/-- One token, with a gap before it. -/
theorem read_token {t : Token} {text word rest : Bytes} (hgap : Gap text (word ++ rest))
    (hword : t.Spells word) (hstop : t.StopsAt rest) : Read [t] text rest := by
  have hlaid : Laid [t] (word ++ rest) rest := ⟨[], word, rest, rfl, .nil, hword, hstop, rfl⟩
  exact (hlaid.prepend hgap).read

theorem rest_of_head? {c : Cursor} {b : UInt8} (h : c.rest.head? = some b) :
    c.rest = b :: c.next.rest := by
  rw [next_rest, List.head?_eq_some_iff.mp h |>.choose_spec]
  rfl

/-- Taking a punctuator that is known to come next. -/
theorem read_of_head? (sign : Punctuator) {c : Cursor} (h : c.rest.head? = some sign.byte) :
    Read [.punctuator sign] c.rest c.next.rest := by
  have hgap : Gap c.rest ([sign.byte] ++ c.next.rest) := by
    rw [rest_of_head? h]
    exact .refl _
  exact read_token hgap (.punctuator sign) trivial

theorem read_of_expect (sign : Punctuator) {c c' : Cursor} {u : Unit}
    (h : (expect sign.byte).run c = .ok (u, c')) : Read [.punctuator sign] c.rest c'.rest := by
  obtain ⟨_, settled, hskip, h⟩ := bind_ok.mp h
  obtain ⟨found, _, hpeek, h⟩ := bind_ok.mp h
  obtain ⟨rfl, rfl⟩ := peek_ok.mp hpeek
  split at h
  · rename_i hfound
    obtain rfl := advance_ok.mp h
    exact (gap_of_skipBlanks hskip).1.read.append (read_of_head? sign hfound)
  · exact (fail_ok.mp h).elim

theorem read_of_accept (sign : Punctuator) {c c' : Cursor} {found : Bool}
    (h : (accept sign.byte).run c = .ok (found, c')) :
    Read (if found then [.punctuator sign] else []) c.rest c'.rest := by
  obtain ⟨_, settled, hskip, h⟩ := bind_ok.mp h
  obtain ⟨next, _, hpeek, h⟩ := bind_ok.mp h
  obtain ⟨rfl, rfl⟩ := peek_ok.mp hpeek
  have hgap := (gap_of_skipBlanks hskip).1
  split at h
  · rename_i hnext
    obtain ⟨_, _, hadvance, h⟩ := bind_ok.mp h
    obtain rfl := advance_ok.mp hadvance
    obtain ⟨rfl, rfl⟩ := pure_ok.mp h
    exact hgap.read.append (read_of_head? sign hnext)
  · obtain ⟨rfl, rfl⟩ := pure_ok.mp h
    exact hgap.read

theorem runs_advance {sign : Punctuator} {ts : List Token} {text rest : Bytes}
    (h : Standing (.punctuator sign :: ts) text rest) :
    Runs advance text fun _ middle => Laid ts middle rest := by
  obtain ⟨_, middle, rfl, hword, -, hts⟩ := h
  cases hword
  exact (Takes.advance sign.byte middle).runs fun _ _ => hts

theorem runs_expect (sign : Punctuator) {ts : List Token} {text rest : Bytes}
    (h : Laid (.punctuator sign :: ts) text rest) :
    Runs (expect sign.byte) text fun _ middle => Laid ts middle rest := by
  refine (runs_skipBlanks h).bind fun _ settled hstanding => Runs.peek_bind ?_
  obtain ⟨b, hb, hbegins⟩ := hstanding.head?
  obtain rfl : b = sign.byte := hbegins
  rw [if_pos hb]
  exact runs_advance hstanding

theorem runs_accept (sign : Punctuator) {ts : List Token} {text rest : Bytes}
    (h : Laid (.punctuator sign :: ts) text rest) :
    Runs (accept sign.byte) text fun found middle => found = true ∧ Laid ts middle rest := by
  refine (runs_skipBlanks h).bind fun _ settled hstanding => Runs.peek_bind ?_
  obtain ⟨b, hb, hbegins⟩ := hstanding.head?
  obtain rfl : b = sign.byte := hbegins
  rw [if_pos hb]
  exact (runs_advance hstanding).bind fun _ _ hts => .pure ⟨rfl, hts⟩

/-! ## §2 Names -/

theorem isName_cons {first : UInt8} {rest : Bytes} :
    isName (first :: rest) = true ↔ isNameStart first = true ∧ ∀ b ∈ rest, isNameByte b = true := by
  simp [isName]

theorem read_of_name {c c' : Cursor} {word : Bytes} (h : name.run c = .ok (word, c')) :
    Read [.name word] c.rest c'.rest ∧ isName word = true := by
  obtain ⟨_, settled, hskip, h⟩ := bind_ok.mp h
  obtain ⟨found, _, hpeek, h⟩ := bind_ok.mp h
  obtain ⟨rfl, rfl⟩ := peek_ok.mp hpeek
  split at h
  · rename_i hstart
    obtain ⟨hsplit, hrun, hstop⟩ := takeRun_split h
    have hname : isName word = true := by
      cases word with
      | nil =>
        have hbyte : ∀ b ∈ c'.rest.head?, isNameStart b = false := by
          intro b hb
          have := hstop b hb
          simp only [isNameByte, Bool.or_eq_false_iff] at this
          exact this.1
        rw [List.nil_append] at hsplit
        rw [hsplit] at hstart
        cases hhead : c'.rest.head? with
        | none => simp [hhead] at hstart
        | some b => simp [hhead, hbyte b hhead] at hstart
      | cons b more =>
        rw [hsplit] at hstart
        exact isName_cons.mpr ⟨by simpa using hstart, fun d hd => hrun d (by simp [hd])⟩
    have hgap := (gap_of_skipBlanks hskip).1
    rw [hsplit] at hgap
    exact ⟨read_token hgap (.name word hname) hstop, hname⟩
  · exact (fail_ok.mp h).elim

theorem runs_name {word : Bytes} {ts : List Token} {text rest : Bytes}
    (h : Laid (.name word :: ts) text rest) :
    Runs name text fun found middle => found = word ∧ Laid ts middle rest := by
  refine (runs_skipBlanks h).bind ?_
  intro _ settled h
  obtain ⟨_, middle, rfl, hword, hstop, hts⟩ := h
  cases hword with
  | name _ hname =>
    refine Runs.peek_bind ?_
    cases word with
    | nil => cases hname
    | cons first more =>
      obtain ⟨hfirst, hmore⟩ := isName_cons.mp hname
      rw [if_pos (by simp [hfirst])]
      have hrun : ∀ b ∈ first :: more, isNameByte b = true :=
        List.forall_mem_cons.mpr ⟨by simp [isNameByte, hfirst], hmore⟩
      exact (Takes.takeRun hrun hstop).runs fun _ hfound => ⟨hfound, hts⟩

/-! ## §3 Numerals -/

/-- No digit comes next. -/
def NoDigit (text : Bytes) : Prop := ∀ b ∈ text.head?, isDigit b = false

theorem split_of_digits {c c' : Cursor} {run : Bytes} (h : digits.run c = .ok (run, c')) :
    c.rest = run ++ c'.rest ∧ IsDigits run ∧ NoDigit c'.rest := by
  obtain ⟨run', middle, hrun, h⟩ := bind_ok.mp h
  obtain ⟨hsplit, hdigits, hstop⟩ := takeRun_split hrun
  split at h
  · obtain ⟨_, _, _, h⟩ := bind_ok.mp h
    exact (fail_ok.mp h).elim
  · rename_i hne
    obtain ⟨rfl, rfl⟩ := pure_ok.mp h
    exact ⟨hsplit, ⟨by simpa using hne, hdigits⟩, hstop⟩

theorem takes_digits {run rest : Bytes} (hrun : IsDigits run) (hstop : NoDigit rest) :
    Takes digits (run ++ rest) (· = run) rest := by
  apply (Takes.takeRun hrun.2 hstop).bind_eq
  rw [if_neg (by simpa using hrun.1)]
  exact .pure rfl

/-- The text of a fraction. -/
def fractionText : Option Bytes → Bytes
  | none => []
  | some digits => ascii '.' :: digits

/-- The text of an exponent, if there is one. -/
def exponentText : Option Numeral.Exponent → Bytes
  | none => []
  | some e => e.text

theorem numeral_text (n : Numeral) : n.text =
    (if n.negative then [ascii '-'] else []) ++ (n.whole ++ (fractionText n.fraction
      ++ exponentText n.exponent)) := by
  obtain ⟨negative, whole, fraction, exponent⟩ := n
  cases fraction <;> cases exponent <;> simp [Numeral.text, fractionText, exponentText]

theorem split_of_minus {c c' : Cursor} {negative : Bool} (h : minus.run c = .ok (negative, c')) :
    c.rest = (if negative then [ascii '-'] else []) ++ c'.rest := by
  obtain ⟨found, _, hpeek, h⟩ := bind_ok.mp h
  obtain ⟨rfl, rfl⟩ := peek_ok.mp hpeek
  split at h
  · rename_i hfound
    obtain ⟨_, _, hadvance, h⟩ := bind_ok.mp h
    obtain rfl := advance_ok.mp hadvance
    obtain ⟨rfl, rfl⟩ := pure_ok.mp h
    exact rest_of_head? hfound
  · obtain ⟨rfl, rfl⟩ := pure_ok.mp h
    rfl

theorem takes_minus (negative : Bool) {rest : Bytes} (hrest : rest.head? ≠ some (ascii '-')) :
    Takes minus ((if negative then [ascii '-'] else []) ++ rest) (· = negative) rest := by
  apply Takes.peek_bind
  cases negative with
  | true => exact (Takes.advance (ascii '-') rest).bind fun _ _ => .pure rfl
  | false =>
    rw [if_neg (by simpa using hrest)]
    exact .pure rfl

theorem split_of_fraction {c c' : Cursor} {found : Option Bytes} (hc : NoDigit c.rest)
    (h : fraction.run c = .ok (found, c')) :
    c.rest = fractionText found ++ c'.rest ∧ (∀ run ∈ found, IsDigits run) ∧ NoDigit c'.rest := by
  obtain ⟨next, _, hpeek, h⟩ := bind_ok.mp h
  obtain ⟨rfl, rfl⟩ := peek_ok.mp hpeek
  split at h
  · rename_i hnext
    obtain ⟨_, _, hadvance, h⟩ := bind_ok.mp h
    obtain rfl := advance_ok.mp hadvance
    obtain ⟨run, hrun, rfl⟩ := map_ok.mp h
    obtain ⟨hsplit, hdigits, hstop⟩ := split_of_digits hrun
    refine ⟨?_, by simpa using hdigits, hstop⟩
    rw [rest_of_head? hnext, hsplit]
    rfl
  · obtain ⟨rfl, rfl⟩ := pure_ok.mp h
    exact ⟨rfl, by simp, hc⟩

theorem takes_fraction {found : Option Bytes} {rest : Bytes} (hfound : ∀ run ∈ found, IsDigits run)
    (hstop : NoDigit rest) (hpoint : rest.head? ≠ some (ascii '.')) :
    Takes fraction (fractionText found ++ rest) (· = found) rest := by
  apply Takes.peek_bind
  cases found with
  | some run =>
    refine (Takes.advance (ascii '.') (run ++ rest)).bind fun _ _ => ?_
    exact (takes_digits (hfound run rfl) hstop).map fun _ h => congrArg some h
  | none =>
    rw [if_neg (by simpa [fractionText] using hpoint)]
    exact .pure rfl

theorem split_of_exponentSign {c c' : Cursor} {sign : Option UInt8}
    (h : exponentSign.run c = .ok (sign, c')) :
    c.rest = sign.toList ++ c'.rest ∧ ∀ s ∈ sign, s = ascii '+' ∨ s = ascii '-' := by
  obtain ⟨found, _, hpeek, h⟩ := bind_ok.mp h
  obtain ⟨rfl, rfl⟩ := peek_ok.mp hpeek
  split at h
  · obtain ⟨rfl, rfl⟩ := pure_ok.mp h
    simp
  · rename_i b hb
    split at h
    · rename_i hsign
      obtain ⟨_, _, hadvance, h⟩ := bind_ok.mp h
      obtain rfl := advance_ok.mp hadvance
      obtain ⟨rfl, rfl⟩ := pure_ok.mp h
      exact ⟨rest_of_head? hb, by simpa using hsign⟩
    · obtain ⟨rfl, rfl⟩ := pure_ok.mp h
      simp

theorem takes_exponentSign {sign : Option UInt8} {rest : Bytes}
    (hsign : ∀ s ∈ sign, s = ascii '+' ∨ s = ascii '-')
    (hrest : ∀ b ∈ rest.head?, isDigit b = true) :
    Takes exponentSign (sign.toList ++ rest) (· = sign) rest := by
  apply Takes.peek_bind
  cases sign with
  | some s =>
    have hs : (decide (s = ascii '+') || decide (s = ascii '-')) = true := by
      simpa using hsign s rfl
    simp only [Option.toList, List.cons_append, List.nil_append, List.head?_cons, hs, if_true]
    exact (Takes.advance s rest).bind fun _ _ => .pure rfl
  | none =>
    simp only [Option.toList, List.nil_append]
    split
    · exact .pure rfl
    · rename_i b hb
      have hdigit := hrest b hb
      rw [if_neg]
      · exact .pure rfl
      · simp only [Bool.or_eq_true, decide_eq_true_eq]
        rintro (rfl | rfl) <;> exact absurd hdigit (by decide)

theorem split_of_exponent {c c' : Cursor} {found : Option Numeral.Exponent} (hc : NoDigit c.rest)
    (h : exponent.run c = .ok (found, c')) :
    c.rest = exponentText found ++ c'.rest ∧ (∀ e ∈ found, e.Written) ∧ NoDigit c'.rest := by
  obtain ⟨next, _, hpeek, h⟩ := bind_ok.mp h
  obtain ⟨rfl, rfl⟩ := peek_ok.mp hpeek
  split at h
  · obtain ⟨rfl, rfl⟩ := pure_ok.mp h
    exact ⟨rfl, by simp, hc⟩
  · rename_i b hb
    split at h
    · rename_i hletter
      obtain ⟨_, _, hadvance, h⟩ := bind_ok.mp h
      obtain rfl := advance_ok.mp hadvance
      obtain ⟨sign, _, hsign, h⟩ := bind_ok.mp h
      obtain ⟨run, _, hrun, h⟩ := bind_ok.mp h
      obtain ⟨rfl, rfl⟩ := pure_ok.mp h
      obtain ⟨hsplit₁, hs⟩ := split_of_exponentSign hsign
      obtain ⟨hsplit₂, hdigits, hstop⟩ := split_of_digits hrun
      refine ⟨?_, ?_, hstop⟩
      · rw [rest_of_head? hb, hsplit₁, hsplit₂]
        simp [exponentText, Numeral.Exponent.text]
      · intro _ h
        obtain ⟨⟩ := h
        exact ⟨by simpa using hletter, hs, hdigits⟩
    · obtain ⟨rfl, rfl⟩ := pure_ok.mp h
      exact ⟨rfl, by simp, hc⟩

theorem takes_exponent {found : Option Numeral.Exponent} {rest : Bytes}
    (hfound : ∀ e ∈ found, e.Written) (hstop : ∀ b ∈ rest.head?, isNameByte b = false) :
    Takes exponent (exponentText found ++ rest) (· = found) rest := by
  have hname {b : UInt8} (hb : b ∈ rest.head?) : isNameStart b = false ∧ isDigit b = false := by
    simpa [isNameByte] using hstop b hb
  apply Takes.peek_bind
  cases found with
  | some e =>
    obtain ⟨letter, sign, run⟩ := e
    obtain ⟨hletter, hsign, hdigits⟩ := hfound _ rfl
    have hl : (decide (letter = ascii 'e') || decide (letter = ascii 'E')) = true := by
      simpa using hletter
    have hhead : ∀ b ∈ (run ++ rest).head?, isDigit b = true := by
      obtain ⟨d, ds, rfl⟩ := List.exists_cons_of_ne_nil hdigits.1
      simpa using hdigits.2 d (by simp)
    simp only [exponentText, Numeral.Exponent.text, List.cons_append, List.append_assoc,
      List.head?_cons, hl, if_true]
    refine (Takes.advance letter _).bind fun _ _ => ?_
    refine (takes_exponentSign hsign hhead).bind_eq ?_
    apply (takes_digits hdigits fun b hb => (hname hb).2).bind_eq
    exact .pure rfl
  | none =>
    simp only [exponentText, List.nil_append]
    split
    · exact .pure rfl
    · rename_i b hb
      have hstart := (hname hb).1
      rw [if_neg]
      · exact .pure rfl
      · simp only [Bool.or_eq_true, decide_eq_true_eq]
        rintro (rfl | rfl) <;> exact absurd hstart (by decide)

/-- The text after a numeral neither continues it nor begins with a point. -/
def AfterNumber (rest : Bytes) : Prop :=
  ∀ b ∈ rest.head?, isNameByte b = false ∧ b ≠ ascii '.'

theorem split_of_numeral {c c' : Cursor} {n : Numeral} (h : numeral.run c = .ok (n, c')) :
    c.rest = n.text ++ c'.rest ∧ n.Written ∧ AfterNumber c'.rest := by
  obtain ⟨negative, _, hminus, h⟩ := bind_ok.mp h
  obtain ⟨whole, _, hwhole, h⟩ := bind_ok.mp h
  obtain ⟨fractionDigits, _, hfraction, h⟩ := bind_ok.mp h
  obtain ⟨e, _, hexponent, h⟩ := bind_ok.mp h
  obtain ⟨next, _, hpeek, h⟩ := bind_ok.mp h
  obtain ⟨rfl, rfl⟩ := peek_ok.mp hpeek
  split at h
  · exact (fail_ok.mp h).elim
  · rename_i hnext
    obtain ⟨rfl, rfl⟩ := pure_ok.mp h
    obtain ⟨hsplit₂, hw, hstop₂⟩ := split_of_digits hwhole
    obtain ⟨hsplit₃, hf, hstop₃⟩ := split_of_fraction hstop₂ hfraction
    obtain ⟨hsplit₄, he, hstop₄⟩ := split_of_exponent hstop₃ hexponent
    refine ⟨?_, ⟨hw, hf, he⟩, fun b hb => ?_⟩
    · rw [split_of_minus hminus, hsplit₂, hsplit₃, hsplit₄, numeral_text]
      simp
    · rw [Option.mem_def.mp hb] at hnext
      simp only [Option.any_some, Bool.or_eq_true, beq_iff_eq, not_or] at hnext
      exact ⟨by simp [isNameByte, hstop₄ b hb, hnext.1], hnext.2⟩

theorem takes_numeral {n : Numeral} {rest : Bytes} (hn : n.Written) (hrest : AfterNumber rest) :
    Takes numeral (n.text ++ rest) (· = n) rest := by
  obtain ⟨negative, whole, fractionDigits, e⟩ := n
  obtain ⟨hw, hf, he⟩ := hn
  have hstop : NoDigit rest := fun b hb => by
    have := (hrest b hb).1
    simp only [isNameByte, Bool.or_eq_false_iff] at this
    exact this.2
  -- What follows each part begins with neither a digit nor, after the fraction, a point.
  have hafter : NoDigit (exponentText e ++ rest) ∧
      (exponentText e ++ rest).head? ≠ some (ascii '.') := by
    cases e with
    | none => exact ⟨hstop, fun hb => (hrest _ hb).2 rfl⟩
    | some e =>
      rcases (he e rfl).letter with hl | hl <;>
        simp [NoDigit, exponentText, Numeral.Exponent.text, hl] <;> decide
  have hwhole : NoDigit (fractionText fractionDigits ++ (exponentText e ++ rest)) := by
    cases fractionDigits with
    | none => exact hafter.1
    | some run => simp [NoDigit, fractionText]; decide
  have hdigit : (whole ++ (fractionText fractionDigits ++ (exponentText e ++ rest))).head?
      ≠ some (ascii '-') := by
    obtain ⟨d, ds, rfl⟩ := List.exists_cons_of_ne_nil hw.1
    have hd := hw.2 d (by simp)
    simp only [List.cons_append, List.head?_cons, ne_eq, Option.some.injEq]
    intro heq
    subst heq
    exact absurd hd (by decide)
  rw [numeral_text]
  simp only [List.append_assoc]
  apply (takes_minus negative hdigit).bind_eq
  apply (takes_digits hw hwhole).bind_eq
  apply (takes_fraction hf hafter.1 hafter.2).bind_eq
  apply (takes_exponent he fun b hb => (hrest b hb).1).bind_eq
  apply Takes.peek_bind
  rw [if_neg]
  · exact .pure rfl
  · cases hhead : rest.head? with
    | none => simp
    | some b =>
      obtain ⟨hname, hpoint⟩ := hrest b hhead
      simp only [isNameByte, Bool.or_eq_false_iff] at hname
      simp [hname.1, hpoint]

/-! ## §4 Numbers -/

theorem int64?_eq_some {n : Int} {value : Int64} : int64? n = some value ↔ n = value.toInt := by
  unfold int64? fitsInt64
  constructor
  · intro h
    split at h
    · rename_i hfits
      simp only [Bool.and_eq_true, decide_eq_true_eq] at hfits
      obtain rfl := Option.some.inj h
      rw [Int64.toInt_ofInt_of_le (by omega) (by omega)]
    · cases h
  · intro heq
    subst heq
    have hlow := value.le_toInt
    have hhigh := value.toInt_lt
    rw [if_pos (by simp only [Bool.and_eq_true, decide_eq_true_eq]; omega), Int64.ofInt_toInt]

/-- A number is read as one token, and is an integer or a double. -/
theorem read_of_number {c c' : Cursor} {l : Literal} (h : number.run c = .ok (l, c')) :
    Read l.tokens c.rest c'.rest ∧
      ((∃ value, l = .int c.location value) ∨ ∃ value, l = .float c.location value) := by
  obtain ⟨location, _, hposition, h⟩ := bind_ok.mp h
  obtain ⟨rfl, rfl⟩ := position_ok.mp hposition
  obtain ⟨n, middle, hn, h⟩ := bind_ok.mp h
  obtain ⟨hsplit, hwritten, hafter⟩ := split_of_numeral hn
  have hgap : Gap c.rest (n.text ++ middle.rest) := hsplit ▸ .refl _
  unfold numberOf at h
  split at h
  · rename_i hinteger
    split at h
    · rename_i value hvalue
      obtain ⟨rfl, rfl⟩ := pure_ok.mp h
      have hdenotes := int64?_eq_some.mp hvalue
      exact ⟨read_token hgap (.int value n hwritten hinteger hdenotes) hafter, .inl ⟨value, rfl⟩⟩
    · exact (failAt_ok.mp h).elim
  · rename_i hinteger
    split at h
    · rename_i value hvalue
      obtain ⟨rfl, rfl⟩ := pure_ok.mp h
      exact ⟨read_token hgap (.float value n hwritten (by simpa using hinteger) hvalue) hafter,
        .inr ⟨value, rfl⟩⟩
    · exact (failAt_ok.mp h).elim

theorem takes_number_int {value : Int64} {word rest : Bytes} (hword : (Token.int value).Spells word)
    (hrest : AfterNumber rest) :
    Takes number (word ++ rest) (fun l => ∃ location, l = .int location value) rest := by
  cases hword with
  | int _ n hwritten hinteger hdenotes =>
    refine (Takes.position _).bind fun location _ => (takes_numeral hwritten hrest).bind_eq ?_
    rw [numberOf, if_pos hinteger, int64?_eq_some.mpr hdenotes]
    exact .pure ⟨location, rfl⟩

theorem takes_number_float {value : Binary64} {word rest : Bytes}
    (hword : (Token.float value).Spells word) (hrest : AfterNumber rest) :
    Takes number (word ++ rest) (fun l => ∃ location, l = .float location value) rest := by
  cases hword with
  | float _ n hwritten hinteger hdenotes =>
    refine (Takes.position _).bind fun location _ => (takes_numeral hwritten hrest).bind_eq ?_
    rw [numberOf, if_neg (by simp [hinteger]), hdenotes]
    exact .pure ⟨location, rfl⟩

end GraphQL.Reading
