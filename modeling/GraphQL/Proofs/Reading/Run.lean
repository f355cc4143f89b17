/-
GraphQL.Proofs.Reading.Run — what the steps of a reading do to the text.

  §1 Successes  — when a composed reading succeeds, step by step.
  §2 Totality   — readings that succeed on a text wherever it stands.
  §3 Blanks     — skipping is exactly passing over ignored text.
  §4 Runs       — a run is the longest one.
  §5 Loops      — `many` is its step repeated, whatever bounds it.

A result is either taken apart (`bind_ok` and the lemmas beside it) or put
together (`Runs`, and `Takes` where it is known what is left). Positions are
carried along and never looked at.
-/
import GraphQL.Proofs.Grammar.Layout

namespace GraphQL.Reading

variable {α β : Type}

/-! ## §1 Successes -/

theorem bind_run (r : Reading α) (f : α → Reading β) (c : Cursor) :
    (r >>= f).run c = match r.run c with
      | .ok (a, middle) => (f a).run middle
      | .error error => .error error := by
  rw [StateT.run_bind]
  cases r.run c <;> rfl

theorem bind_ok {r : Reading α} {f : α → Reading β} {c c' : Cursor} {b : β} :
    (r >>= f).run c = .ok (b, c') ↔
      ∃ a middle, r.run c = .ok (a, middle) ∧ (f a).run middle = .ok (b, c') := by
  rw [bind_run]
  cases r.run c with
  | ok p =>
    obtain ⟨a, middle⟩ := p
    simp [and_assoc]
  | error error => simp

theorem pure_ok {a b : α} {c c' : Cursor} :
    (pure a : Reading α).run c = .ok (b, c') ↔ a = b ∧ c = c' := by
  rw [StateT.run_pure]
  simp [pure, Except.pure]

theorem map_ok {f : α → β} {r : Reading α} {c c' : Cursor} {b : β} :
    (f <$> r).run c = .ok (b, c') ↔ ∃ a, r.run c = .ok (a, c') ∧ f a = b := by
  rw [map_eq_pure_bind, bind_ok]
  constructor
  · intro h
    obtain ⟨a, middle, hr, hp⟩ := h
    obtain ⟨rfl, rfl⟩ := pure_ok.mp hp
    exact ⟨a, hr, rfl⟩
  · intro h
    obtain ⟨a, hr, rfl⟩ := h
    exact ⟨a, c', hr, pure_ok.mpr ⟨rfl, rfl⟩⟩

theorem failAt_ok {problem : SyntaxProblem} {location : Location} {c : Cursor} {p : α × Cursor} :
    (failAt problem location : Reading α).run c = .ok p ↔ False := by
  simp [failAt, throw, throwThe, MonadExceptOf.throw, StateT.lift, StateT.run, bind, Except.bind]

theorem fail_ok {problem : SyntaxProblem} {c : Cursor} {p : α × Cursor} :
    (fail problem : Reading α).run c = .ok p ↔ False := by
  obtain ⟨a, c'⟩ := p
  simp only [fail, bind_ok, failAt_ok, and_false, exists_false]

theorem position_ok {c c' : Cursor} {location : Location} :
    position.run c = .ok (location, c') ↔ c.location = location ∧ c = c' := by
  show Except.ok (c.location, c) = .ok (location, c') ↔ _
  simp

theorem peek_ok {c c' : Cursor} {found : Option UInt8} :
    peek.run c = .ok (found, c') ↔ c.rest.head? = found ∧ c = c' := by
  show Except.ok (c.rest.head?, c) = .ok (found, c') ↔ _
  simp

theorem advance_ok {c c' : Cursor} {u : Unit} :
    advance.run c = .ok (u, c') ↔ c.next = c' := by
  show Except.ok ((), c.next) = .ok (u, c') ↔ _
  simp

theorem skipBlanks_ok {c c' : Cursor} {u : Unit} :
    skipBlanks.run c = .ok (u, c') ↔ skipFrom false c.rest c.location = c' := by
  show Except.ok ((), skipFrom false c.rest c.location) = .ok (u, c') ↔ _
  simp

theorem takeRun_ok {member : UInt8 → Bool} {c c' : Cursor} {run : Bytes} :
    (takeRun member).run c = .ok (run, c') ↔
      runFrom member [] c.rest c.location = (run, c') := by
  show Except.ok (runFrom member [] c.rest c.location) = .ok (run, c') ↔ _
  simp

theorem get_ok {c c' seen : Cursor} :
    (get : Reading Cursor).run c = .ok (seen, c') ↔ c = seen ∧ c = c' := by
  show Except.ok (c, c) = .ok (seen, c') ↔ _
  simp

@[simp] theorem next_rest (c : Cursor) : c.next.rest = c.rest.tail := by
  obtain ⟨rest, location⟩ := c
  cases rest <;> rfl

/-! ## §2 Totality -/

/-- Wherever `text` stands, `r` succeeds on it, and `post` holds of its result and
of what it leaves. -/
def Runs (r : Reading α) (text : Bytes) (post : α → Bytes → Prop) : Prop :=
  ∀ location, ∃ a c', r.run ⟨text, location⟩ = .ok (a, c') ∧ post a c'.rest

namespace Runs

theorem bind {r : Reading α} {f : α → Reading β} {text : Bytes} {post : α → Bytes → Prop}
    {goal : β → Bytes → Prop} (hr : Runs r text post)
    (hf : ∀ a middle, post a middle → Runs (f a) middle goal) : Runs (r >>= f) text goal := by
  intro location
  obtain ⟨a, middle, hrun, ha⟩ := hr location
  obtain ⟨b, c', hrun', hb⟩ := hf a middle.rest ha middle.location
  exact ⟨b, c', bind_ok.mpr ⟨a, middle, hrun, hrun'⟩, hb⟩

theorem pure {a : α} {text : Bytes} {post : α → Bytes → Prop} (h : post a text) :
    Runs (Pure.pure a) text post := fun location => ⟨a, ⟨text, location⟩, rfl, h⟩

theorem weaken {r : Reading α} {text : Bytes} {post goal : α → Bytes → Prop} (hr : Runs r text post)
    (h : ∀ a middle, post a middle → goal a middle) : Runs r text goal := by
  intro location
  obtain ⟨a, c', hrun, ha⟩ := hr location
  exact ⟨a, c', hrun, h a c'.rest ha⟩

theorem map {f : α → β} {r : Reading α} {text : Bytes} {post : α → Bytes → Prop}
    {goal : β → Bytes → Prop} (hr : Runs r text post)
    (h : ∀ a middle, post a middle → goal (f a) middle) : Runs (f <$> r) text goal := by
  intro location
  obtain ⟨a, c', hrun, ha⟩ := hr location
  exact ⟨f a, c', map_ok.mpr ⟨a, hrun, rfl⟩, h a c'.rest ha⟩

/-- A step whose result is known goes on with that result. -/
theorem bind_eq {r : Reading α} {f : α → Reading β} {text : Bytes} {a : α} {post : Bytes → Prop}
    {goal : β → Bytes → Prop} (hr : Runs r text fun found middle => found = a ∧ post middle)
    (hf : ∀ middle, post middle → Runs (f a) middle goal) : Runs (r >>= f) text goal := by
  apply hr.bind
  intro found middle h
  obtain ⟨rfl, hpost⟩ := h
  exact hf middle hpost

theorem peek_bind {f : Option UInt8 → Reading β} {text : Bytes} {goal : β → Bytes → Prop}
    (h : Runs (f text.head?) text goal) : Runs (Reading.peek >>= f) text goal := by
  intro location
  obtain ⟨b, c', hrun, hb⟩ := h location
  exact ⟨b, c', bind_ok.mpr ⟨_, _, rfl, hrun⟩, hb⟩

theorem position_bind {f : Location → Reading β} {text : Bytes} {goal : β → Bytes → Prop}
    (h : ∀ location, Runs (f location) text goal) : Runs (Reading.position >>= f) text goal := by
  intro location
  obtain ⟨b, c', hrun, hb⟩ := h location location
  exact ⟨b, c', bind_ok.mpr ⟨_, _, rfl, hrun⟩, hb⟩

end Runs

/-- Wherever `text` stands, `r` takes it up to `rest`, and its result satisfies
`P`. -/
def Takes (r : Reading α) (text : Bytes) (P : α → Prop) (rest : Bytes) : Prop :=
  Runs r text fun a middle => P a ∧ middle = rest

namespace Takes

theorem runs {r : Reading α} {text rest : Bytes} {P : α → Prop} {post : α → Bytes → Prop}
    (hr : Takes r text P rest) (h : ∀ a, P a → post a rest) : Runs r text post :=
  hr.weaken fun a _ ha => ha.2 ▸ h a ha.1

theorem imp {r : Reading α} {text rest : Bytes} {P Q : α → Prop} (hr : Takes r text P rest)
    (h : ∀ a, P a → Q a) : Takes r text Q rest :=
  hr.runs fun a ha => ⟨h a ha, rfl⟩

theorem bind {r : Reading α} {f : α → Reading β} {text middle rest : Bytes} {P : α → Prop}
    {Q : β → Prop} (hr : Takes r text P middle) (hf : ∀ a, P a → Takes (f a) middle Q rest) :
    Takes (r >>= f) text Q rest :=
  Runs.bind hr fun a _ ha => ha.2 ▸ hf a ha.1

/-- A step whose result is known goes on with that result. -/
theorem bind_eq {r : Reading α} {f : α → Reading β} {text middle rest : Bytes} {a : α}
    {Q : β → Prop} (hr : Takes r text (· = a) middle) (hf : Takes (f a) middle Q rest) :
    Takes (r >>= f) text Q rest := by
  apply hr.bind
  intro found h
  rw [h]
  exact hf

theorem pure {a : α} {text : Bytes} {P : α → Prop} (ha : P a) :
    Takes (Pure.pure a) text P text := Runs.pure ⟨ha, rfl⟩

theorem map {f : α → β} {r : Reading α} {text rest : Bytes} {P : α → Prop} {Q : β → Prop}
    (hr : Takes r text P rest) (hf : ∀ a, P a → Q (f a)) : Takes (f <$> r) text Q rest :=
  Runs.map hr fun a _ ha => ⟨hf a ha.1, ha.2⟩

theorem peek_bind {f : Option UInt8 → Reading β} {text rest : Bytes} {Q : β → Prop}
    (h : Takes (f text.head?) text Q rest) : Takes (Reading.peek >>= f) text Q rest :=
  Runs.peek_bind h

theorem position (text : Bytes) : Takes position text (fun _ => True) text :=
  fun location => ⟨_, ⟨text, location⟩, rfl, trivial, rfl⟩

theorem advance (b : UInt8) (rest : Bytes) : Takes advance (b :: rest) (fun _ => True) rest :=
  fun _ => ⟨_, _, rfl, trivial, rfl⟩

end Takes

/-! ## §3 Blanks -/

/-- The text begins with a byte that is not skipped, or is at its end. -/
def Settled (text : Bytes) : Prop :=
  ∀ b ∈ text.head?, isBlank b = false ∧ b ≠ ascii '#'

/-- Nothing is skipped at the end of the text. -/
theorem skipFrom_nil (inComment : Bool) (location : Location) :
    skipFrom inComment [] location = ⟨[], location⟩ := rfl

/-- A comment is closed by a line end. -/
theorem skipFrom_true (b : UInt8) (rest : Bytes) (location : Location) :
    skipFrom true (b :: rest) location = skipFrom (!isLineEnd b) rest (location.after b rest) := rfl

theorem skipFrom_false (b : UInt8) (rest : Bytes) (location : Location) :
    skipFrom false (b :: rest) location =
      if isBlank b then skipFrom false rest (location.after b rest)
      else if b == ascii '#' then skipFrom true rest (location.after b rest)
      else ⟨b :: rest, location⟩ := rfl

/-- What is skipped is ignored text; `body` is what a comment has had so far. -/
theorem skipFrom_gap (text : Bytes) : ∀ (inComment : Bool) (location : Location) (body : Bytes),
    (∀ c ∈ body, isLineEnd c = false) →
    Gap (if inComment then ascii '#' :: (body ++ text) else text)
      (skipFrom inComment text location).rest := by
  induction text with
  | nil =>
    intro inComment location body hbody
    cases inComment with
    | false => exact .refl []
    | true =>
      refine .inr ⟨rfl, ?_⟩
      simpa using Trailing.comment .nil hbody
  | cons b rest ih =>
    intro inComment location body hbody
    cases inComment with
    | true =>
      rw [skipFrom_true, if_pos rfl]
      cases hend : isLineEnd b with
      | true =>
        have hclosed : Ignored (ascii '#' :: (body ++ [b])) := .comment hbody hend .nil
        have := (ih false (location.after b rest) [] (by simp)).prepend hclosed
        simpa using this
      | false =>
        have hmore : ∀ c ∈ body ++ [b], isLineEnd c = false := by
          simpa [or_imp, forall_and, hend] using hbody
        simpa using ih true (location.after b rest) (body ++ [b]) hmore
    | false =>
      simp only [skipFrom_false, Bool.false_eq_true, if_false]
      split
      · rename_i hblank
        have hclosed : Ignored [b] := .blank hblank .nil
        have := (ih false (location.after b rest) [] (by simp)).prepend hclosed
        simpa using this
      · split
        · rename_i hhash
          obtain rfl := eq_of_beq hhash
          simpa using ih true (location.after (ascii '#') rest) [] (by simp)
        · exact .refl _

theorem skipFrom_settled (text : Bytes) : ∀ (inComment : Bool) (location : Location),
    Settled (skipFrom inComment text location).rest := by
  induction text with
  | nil =>
    intro inComment location b hb
    cases hb
  | cons b rest ih =>
    intro inComment location
    cases inComment with
    | true => exact ih _ _
    | false =>
      rw [skipFrom_false]
      split
      · exact ih _ _
      · split
        · exact ih _ _
        · rename_i hblank hhash
          intro c hc
          obtain rfl : b = c := by simpa using hc
          exact ⟨by simpa using hblank, by simpa using hhash⟩

/-- The body of a comment is skipped together with the line end that closes it. -/
theorem skipFrom_comment (rest : Bytes) {body : Bytes} {lineEnd : UInt8}
    (hbody : ∀ c ∈ body, isLineEnd c = false) (hend : isLineEnd lineEnd = true) :
    ∀ location, ∃ location',
      skipFrom true (body ++ lineEnd :: rest) location = skipFrom false rest location' := by
  induction body with
  | nil =>
    intro location
    exact ⟨location.after lineEnd rest, by simp [skipFrom_true, hend]⟩
  | cons c body ih =>
    intro location
    obtain ⟨hc, hrest⟩ := List.forall_mem_cons.mp hbody
    obtain ⟨location', h⟩ := ih hrest (location.after c (body ++ lineEnd :: rest))
    exact ⟨location', by simpa [skipFrom_true, hc] using h⟩

theorem skipFrom_ignored {gap : Bytes} (hgap : Ignored gap) (rest : Bytes) :
    ∀ location, ∃ location',
      skipFrom false (gap ++ rest) location = skipFrom false rest location' := by
  induction hgap with
  | nil => exact fun location => ⟨location, rfl⟩
  | blank hb _ ih =>
    intro location
    obtain ⟨location', h⟩ := ih (location.after _ _)
    exact ⟨location', by simpa only [List.cons_append, skipFrom_false, hb, if_true] using h⟩
  | @comment body more lineEnd hbody hend _ ih =>
    intro location
    have hblank : isBlank (ascii '#') = false := by decide
    obtain ⟨location₁, h₁⟩ := skipFrom_comment (more ++ rest) hbody hend
      (location.after (ascii '#') (body ++ lineEnd :: (more ++ rest)))
    obtain ⟨location₂, h₂⟩ := ih location₁
    refine ⟨location₂, ?_⟩
    rw [← h₂, ← h₁]
    simp [skipFrom_false, hblank]

theorem skipFrom_of_settled {text : Bytes} (h : Settled text) (location : Location) :
    skipFrom false text location = ⟨text, location⟩ := by
  cases text with
  | nil => rfl
  | cons b rest =>
    obtain ⟨hblank, hhash⟩ := h b rfl
    simp [skipFrom_false, hblank, hhash]

theorem skipFrom_openComment {body : Bytes} (hbody : ∀ c ∈ body, isLineEnd c = false) :
    ∀ location, (skipFrom true body location).rest = [] := by
  induction body with
  | nil => exact fun _ => rfl
  | cons c body ih =>
    intro location
    obtain ⟨hc, hrest⟩ := List.forall_mem_cons.mp hbody
    simpa [skipFrom_true, hc] using ih hrest _

theorem skipFrom_trailing {text : Bytes} (h : Trailing text) (location : Location) :
    (skipFrom false text location).rest = [] := by
  cases h with
  | closed h =>
    obtain ⟨location', h⟩ := skipFrom_ignored h [] location
    rw [List.append_nil] at h
    rw [h, skipFrom_nil]
  | @comment text body h hbody =>
    have hblank : isBlank (ascii '#') = false := by decide
    obtain ⟨location', h⟩ := skipFrom_ignored h (ascii '#' :: body) location
    rw [h]
    simpa [skipFrom_false, hblank] using skipFrom_openComment hbody _

/-- A token does not begin with a byte that is skipped. -/
theorem settled_of_beginsWith {t : Token} {b : UInt8} (h : t.BeginsWith b) (rest : Bytes) :
    Settled (b :: rest) := by
  intro c hc
  obtain rfl : b = c := by simpa using hc
  have byte {P : UInt8 → Bool} (hP : ∀ n < 256, P (UInt8.ofNat n) = true →
      isBlank (UInt8.ofNat n) = false ∧ UInt8.ofNat n ≠ ascii '#') (hb : P b = true) :
      isBlank b = false ∧ b ≠ ascii '#' := by
    have := hP b.toNat b.toNat_lt
    rw [UInt8.ofNat_toNat] at this
    exact this hb
  cases t with
  | punctuator sign =>
    obtain rfl := h
    cases sign <;> decide
  | name _ => exact byte (by decide +kernel) h
  | int _ | float _ =>
    rcases h with rfl | h
    · decide
    · exact byte (by decide +kernel) h
  | string _ =>
    obtain rfl := h
    decide

/-- Skipping before a token stops at its word. -/
theorem runs_skipBlanks {t : Token} {ts : List Token} {text rest : Bytes}
    (h : Laid (t :: ts) text rest) :
    Runs skipBlanks text fun _ middle => Standing (t :: ts) middle rest := by
  obtain ⟨gap, after, rfl, hgap, hstanding⟩ := h.exists_standing
  intro location
  obtain ⟨location', hskip⟩ := skipFrom_ignored hgap after location
  have hsettled : Settled after := by
    obtain ⟨b, hb, hbegins⟩ := hstanding.head?
    obtain ⟨more, rfl⟩ := List.head?_eq_some_iff.mp hb
    exact settled_of_beginsWith hbegins more
  exact ⟨(), ⟨after, location'⟩,
    skipBlanks_ok.mpr (by rw [hskip, skipFrom_of_settled hsettled]), hstanding⟩

/-! ## §4 Runs -/

theorem runFrom_eq (member : UInt8 → Bool) (text : Bytes) : ∀ (taken : Bytes) (location : Location),
    ∃ location', runFrom member taken text location =
      (taken.reverse ++ text.takeWhile member, ⟨text.dropWhile member, location'⟩) := by
  induction text with
  | nil => exact fun taken location => ⟨location, by simp [runFrom]⟩
  | cons b rest ih =>
    intro taken location
    cases hb : member b with
    | true =>
      obtain ⟨location', h⟩ := ih (b :: taken) (location.after b rest)
      exact ⟨location', by simp [runFrom, hb, h]⟩
    | false => exact ⟨location, by simp [runFrom, hb]⟩

theorem takeRun_split {member : UInt8 → Bool} {c c' : Cursor} {run : Bytes}
    (h : (takeRun member).run c = .ok (run, c')) :
    c.rest = run ++ c'.rest ∧ (∀ b ∈ run, member b = true) ∧
      ∀ b ∈ c'.rest.head?, member b = false := by
  obtain ⟨location', hrun⟩ := runFrom_eq member c.rest [] c.location
  rw [takeRun_ok, hrun] at h
  obtain ⟨rfl, rfl⟩ := Prod.mk.injEq .. ▸ h
  refine ⟨by simp, fun b hb => ?_, fun b hb => ?_⟩
  · exact List.all_eq_true.mp (List.all_takeWhile) b (by simpa using hb)
  · have := List.head?_dropWhile_not member c.rest
    rw [Option.mem_def.mp hb] at this
    simpa using this

theorem Takes.takeRun {member : UInt8 → Bool} {run rest : Bytes}
    (hrun : ∀ b ∈ run, member b = true) (hrest : ∀ b ∈ rest.head?, member b = false) :
    Takes (takeRun member) (run ++ rest) (· = run) rest := by
  intro location
  obtain ⟨location', h⟩ := runFrom_eq member (run ++ rest) [] location
  have hstop : rest.takeWhile member = [] ∧ rest.dropWhile member = rest := by
    cases rest with
    | nil => simp
    | cons b more => simp [hrest b rfl]
  refine ⟨run, ⟨rest, location'⟩, takeRun_ok.mpr ?_, rfl, rfl⟩
  rw [h, List.takeWhile_append_of_pos hrun, List.dropWhile_append_of_pos hrun, hstop.1, hstop.2]
  simp

/-! ## §5 Loops -/

/-- The step, repeated from a cursor until it says that the list is complete:
`earlier` holds the items before, latest first, `later` those that follow. -/
inductive Repeats (step : List α → Reading (Option α)) :
    List α → Cursor → List α → Cursor → Prop where
  | stop {earlier : List α} {c c' : Cursor} :
    (step earlier).run c = .ok (none, c') → Repeats step earlier c [] c'
  | next {earlier later : List α} {c middle c' : Cursor} {a : α} :
    (step earlier).run c = .ok (some a, middle) → Repeats step (a :: earlier) middle later c' →
      Repeats step earlier c (a :: later) c'

/-- Every item takes at least one byte. -/
def Progresses (step : List α → Reading (Option α)) : Prop :=
  ∀ earlier c a c', (step earlier).run c = .ok (some a, c') → c'.rest.length < c.rest.length

theorem repeats_of_manyFrom {step : List α → Reading (Option α)} (hstep : Progresses step)
    (bound : Bytes) : ∀ {earlier items : List α} {c c' : Cursor}, c.rest.length < bound.length →
      (manyFrom step bound earlier).run c = .ok (items, c') →
      ∃ later, items = earlier.reverse ++ later ∧ Repeats step earlier c later c' := by
  induction bound with
  | nil =>
    intro earlier items c c' hlength
    simp at hlength
  | cons _ bound ih =>
    intro earlier items c c' hlength h
    obtain ⟨found, middle, hfound, h⟩ := bind_ok.mp h
    cases found with
    | none =>
      obtain ⟨rfl, rfl⟩ := pure_ok.mp h
      exact ⟨[], by simp, .stop hfound⟩
    | some a =>
      have hshorter := hstep _ _ _ _ hfound
      simp only [List.length_cons] at hlength
      obtain ⟨later, rfl, hlater⟩ := ih (by omega) h
      exact ⟨a :: later, by simp, .next hfound hlater⟩

theorem manyFrom_of_repeats {step : List α → Reading (Option α)} (hstep : Progresses step)
    {earlier later : List α} {c c' : Cursor} (h : Repeats step earlier c later c') :
    ∀ bound : Bytes, c.rest.length < bound.length →
      (manyFrom step bound earlier).run c = .ok (earlier.reverse ++ later, c') := by
  induction h with
  | stop hfound =>
    intro bound hlength
    obtain ⟨_, bound, rfl⟩ := List.exists_cons_of_length_pos (Nat.zero_lt_of_lt hlength)
    exact bind_ok.mpr ⟨none, _, hfound, pure_ok.mpr ⟨by simp, rfl⟩⟩
  | next hfound _ ih =>
    intro bound hlength
    obtain ⟨_, bound, rfl⟩ := List.exists_cons_of_length_pos (Nat.zero_lt_of_lt hlength)
    have hshorter := hstep _ _ _ _ hfound
    simp only [List.length_cons] at hlength
    have := ih bound (by omega)
    rw [List.reverse_cons, List.append_assoc, List.singleton_append] at this
    exact bind_ok.mpr ⟨some _, _, hfound, this⟩

/-- A loop is its step repeated: what bounds it never ends it. -/
theorem many_ok {step : List α → Reading (Option α)} (hstep : Progresses step)
    {c c' : Cursor} {items : List α} :
    (many step).run c = .ok (items, c') ↔ Repeats step [] c items c' := by
  unfold many
  simp only [bind_ok, get_ok, and_assoc, exists_eq_left', exists_and_left]
  constructor
  · intro h
    obtain ⟨later, rfl, hlater⟩ := repeats_of_manyFrom hstep _ (by simp) h
    exact hlater
  · intro h
    exact manyFrom_of_repeats hstep h _ (by simp)

end GraphQL.Reading
