/-
GraphQL.Proofs.Reading.Balance — code closes what it opens and takes text at every call and
every turn.

  §1 Progress — readings that take a part of the text.
  §2 Moments  — what is to hold whenever code is about to run.
  §3 Steps    — code that tracks a reading, construct by construct.
  §4 Loops    — a loop ends because its turns take text.
  §5 Scans    — loops over single bytes.

Code tracks a reading if it does the same on every machine with so many levels to open, and
is sound at every moment of its run. Each construct of code keeps this. That a loop ends is
no part of its code: its turns take text, so it does what a loop does that the text bounds.
-/
import GraphQL.Proofs.Reading.Invariant
import GraphQL.Proofs.Reading.Routine

namespace GraphQL

/-! ## §1 Progress -/

/-- What is left at the cursor is an end of what was left at the other one, and shorter. -/
structure Cursor.Beyond (c before : Cursor) : Prop where
  suffix : c.rest <:+ before.rest
  shorter : c.rest.length < before.rest.length

namespace Reading

variable {α β : Type}

/-- To have an end of a text left is kept by every byte. -/
def ending (text : Bytes) : Invariant where
  holds c := c.rest <:+ text
  after := fun h => (List.suffix_cons _ _).trans h

theorem suffix_of_stays {r : Reading α} (hr : ∀ text, Stays (ending text) r) {c c' : Cursor}
    {a : α} (h : r.run c = .ok (a, c')) : c'.rest <:+ c.rest :=
  ((hr c.rest).of_ok List.suffix_rfl h).2

theorem beyond_next {c : Cursor} {b : UInt8} (h : c.rest.head? = some b) : c.next.Beyond c := by
  have hrest := rest_of_head? h
  exact ⟨hrest ▸ List.suffix_cons _ _, hrest ▸ Nat.lt_succ_self _⟩

/-- What is beyond the blanks is beyond where they begin. -/
theorem beyond_of_skipBlanks {c middle c' : Cursor} {u : Unit}
    (hskip : skipBlanks.run c = .ok (u, middle)) (h : c'.Beyond middle) : c'.Beyond c := by
  have hsuffix := suffix_of_stays (fun _ => Keeps.skipBlanks) hskip
  exact ⟨h.suffix.trans hsuffix, h.shorter.trans_le hsuffix.length_le⟩

/-- The reading takes a part of the text whenever it succeeds. -/
def Advances (r : Reading α) : Prop := ∀ ⦃c a c'⦄, r.run c = .ok (a, c') → c'.Beyond c

/-- Progress at the first step is progress of the whole. -/
theorem Advances.bind {r : Reading α} {f : α → Reading β} (hr : Advances r)
    (hf : ∀ a text, Stays (ending text) (f a)) : Advances (r >>= f) := by
  intro c b c' h
  obtain ⟨a, middle, hfirst, hrest⟩ := bind_ok.mp h
  have hbeyond := hr hfirst
  have hsuffix := suffix_of_stays (hf a) hrest
  exact ⟨hsuffix.trans hbeyond.suffix, hsuffix.length_le.trans_lt hbeyond.shorter⟩

/-- What is written as a token or more takes text. -/
theorem advances_of_gives {r : Reading α} {tokens : α → List Token} {P : α → Prop}
    (hgives : Gives r tokens P) (hne : ∀ a, tokens a ≠ [])
    (hstays : ∀ text, Stays (ending text) r) : Advances r :=
  fun _ a _ h => ⟨suffix_of_stays hstays h, (hgives h).1.length_lt (hne a)⟩

theorem advances_fail (problem : SyntaxProblem) : Advances (fail problem : Reading α) :=
  fun _ _ _ h => (fail_ok.mp h).elim

theorem advances_expect (b : UInt8) : Advances (expect b) := by
  intro c u c' h
  obtain ⟨_, _, hskip, h⟩ := bind_ok.mp h
  obtain ⟨found, _, hpeek, h⟩ := bind_ok.mp h
  obtain ⟨rfl, rfl⟩ := peek_ok.mp hpeek
  split at h
  · rename_i hfound
    obtain rfl := advance_ok.mp h
    exact beyond_of_skipBlanks hskip (beyond_next hfound)
  · exact (fail_ok.mp h).elim

theorem advances_parenthesised {item : List α → Reading α}
    (hitem : ∀ text items, Stays (ending text) (item items)) : Advances (parenthesised item) := by
  have hclose : IsPlain [ascii ')'] := by simp [IsPlain]; decide
  exact (advances_expect _).bind fun _ text =>
    (Keeps.stays_many (Keeps.parenthesisedStep (hitem text))).bind fun _ _ =>
      (Keeps.expect hclose).bind fun _ _ => .pure trivial

theorem advances_string : Advances string := by
  intro c l c' h
  have hsuffix := suffix_of_stays (fun _ => Keeps.string) h
  obtain ⟨start, _, hposition, h⟩ := bind_ok.mp h
  obtain ⟨rfl, rfl⟩ := position_ok.mp hposition
  obtain ⟨_, _, hadvance, h⟩ := bind_ok.mp h
  obtain rfl := advance_ok.mp hadvance
  obtain ⟨pieces, middle, hpieces, h⟩ := bind_ok.mp h
  obtain ⟨-, rfl⟩ := pure_ok.mp h
  -- The closing quote alone is a byte of text, whatever the opening one is.
  obtain ⟨_, body, -, -, hsplit⟩ :=
    textSpelling_of_repeats ((many_ok (progresses_character _)).mp hpieces)
  have hnext : c.next.rest.length ≤ c.rest.length := by
    rw [next_rest]
    exact (List.tail_suffix _).length_le
  rw [hsplit, List.length_append, List.length_cons] at hnext
  exact ⟨hsuffix, by omega⟩

theorem TypeExpr.tokens_ne_nil (type : TypeExpr Bytes) : type.tokens ≠ [] := by
  cases type <;> simp [TypeExpr.tokens]

theorem advances_entry {duplicate : Bytes → SyntaxProblem}
    (hduplicate : ∀ text, (duplicate text).named = text) (references : References) (budget : Nat)
    (earlier : List (Entry Literal)) :
    Advances (entry duplicate (literal references budget) earlier) :=
  advances_of_gives (gives_entry duplicate (gives_literal references budget) earlier)
    (by simp [Entry.tokens])
    fun _ => Keeps.entry hduplicate (Keeps.literal references budget) earlier

theorem advances_variableDefinition (earlier : List VariableDefinition) :
    Advances (variableDefinition earlier) :=
  advances_of_gives (gives_variableDefinition earlier) (by simp [VariableDefinition.tokens])
    fun _ => Keeps.variableDefinition earlier

theorem advances_field (budget : Nat) :
    Advances (field (literal .allowed budget) (selections budget)) :=
  advances_of_gives (gives_field (gives_literal .allowed budget) (gives_selections budget))
    Field.tokens_ne_nil
    fun _ => Keeps.field (Keeps.literal .allowed budget) (Keeps.selections budget)

theorem advances_selection {field : Reading Field} (hfield : Advances field) :
    Advances (selection field) := by
  intro c f c' h
  obtain ⟨found, _, hpeek, h⟩ := bind_ok.mp h
  obtain ⟨rfl, rfl⟩ := peek_ok.mp hpeek
  split at h
  · exact (fail_ok.mp h).elim
  · exact hfield h

theorem Routine.advances (routine : Routine α) (budget : Nat) :
    Advances (routine.reading budget) := by
  cases routine with
  | operation =>
    intro c o c' h
    obtain ⟨⟨tokens, -, hne, hread⟩, -⟩ := read_of_operation h
    exact ⟨suffix_of_stays (fun _ => Keeps.operation.stays) h, hread.length_lt hne⟩
  | variableDefinitions => exact advances_parenthesised fun _ => Keeps.variableDefinition
  | type =>
    exact advances_of_gives (gives_writtenType budget) TypeExpr.tokens_ne_nil
      fun _ => Keeps.writtenType budget
  | selectionSet =>
    exact advances_of_gives (gives_selections budget) (by simp [bracedTokens])
      fun _ => Keeps.selections budget
  | field => exact advances_field budget
  | arguments =>
    exact advances_parenthesised fun _ =>
      Keeps.entry (fun _ => rfl) (Keeps.literal .allowed budget)
  | value references =>
    exact advances_of_gives (gives_literal references budget) Literal.tokens_ne_nil
      fun _ => Keeps.literal references budget
  | string => exact advances_string
  | number =>
    intro c l c' h
    exact ⟨suffix_of_stays (fun _ => Keeps.number) h,
      (read_of_number h).1.length_lt (Literal.tokens_ne_nil l)⟩
  | list references location =>
    cases budget with
    | zero => exact advances_fail _
    | succ budget =>
      exact advances_of_gives (gives_listLiteral (gives_literal references budget) location)
        Literal.tokens_ne_nil fun _ => Keeps.listLiteral location (Keeps.literal references budget)
  | object references location =>
    cases budget with
    | zero => exact advances_fail _
    | succ budget =>
      exact advances_of_gives (gives_objectLiteral (gives_literal references budget) location)
        Literal.tokens_ne_nil
        fun _ => Keeps.objectLiteral location (Keeps.literal references budget)

/-! ## §2 Moments -/

namespace Code

/-- Run on the machine, the code does what the reading does at its cursor. The counts are
afterwards what they were. -/
def Does (code : Code α) (machine : Machine) (reading : Reading α) : Prop :=
  match reading.run machine.cursor with
  | .ok (a, cursor) => code.Ends machine (.ok a) { machine with cursor }
  | .error error => ∃ cursor, code.Ends machine (.error error) { machine with cursor }

section Does

variable {code : Code α} {machine : Machine} {reading : Reading α}

theorem Does.of_ok (h : code.Does machine reading) {a : α} {cursor : Cursor}
    (hrun : reading.run machine.cursor = .ok (a, cursor)) :
    code.Ends machine (.ok a) { machine with cursor } := by
  unfold Does at h
  rwa [hrun] at h

theorem Does.of_error (h : code.Does machine reading) {error : SyntaxError}
    (hrun : reading.run machine.cursor = .error error) :
    ∃ cursor, code.Ends machine (.error error) { machine with cursor } := by
  unfold Does at h
  rwa [hrun] at h

/-- Code does what other code does on another machine if it comes to the same ends. -/
theorem Does.of_does {other : Code α} {otherMachine : Machine} {r : Reading α}
    (h : other.Does otherMachine r) (hrun : reading.run machine.cursor = r.run otherMachine.cursor)
    (hends : ∀ {outcome cursor}, other.Ends otherMachine outcome { otherMachine with cursor } →
      code.Ends machine outcome { machine with cursor }) : code.Does machine reading := by
  unfold Does
  rw [hrun]
  cases hother : r.run otherMachine.cursor with
  | ok result => exact hends (h.of_ok hother)
  | error error =>
    obtain ⟨cursor, hfailed⟩ := h.of_error hother
    exact ⟨cursor, hends hfailed⟩

/-- The code ends, and closes what it opens. -/
theorem Does.ends (h : code.Does machine reading) :
    ∃ outcome cursor, code.Ends machine outcome { machine with cursor } := by
  cases hrun : reading.run machine.cursor with
  | ok result => exact ⟨_, _, h.of_ok hrun⟩
  | error error =>
    obtain ⟨cursor, hcode⟩ := h.of_error hrun
    exact ⟨_, cursor, hcode⟩

/-- Where the code succeeds the reading does. -/
theorem Does.exists_cursor (h : code.Does machine reading) {a : α} {after : Machine}
    (hcode : code.Ends machine (.ok a) after) :
    ∃ cursor, reading.run machine.cursor = .ok (a, cursor) ∧ after = { machine with cursor } := by
  cases hrun : reading.run machine.cursor with
  | ok result =>
    obtain ⟨heq, hafter⟩ := hcode.unique (h.of_ok hrun)
    cases heq
    exact ⟨_, rfl, hafter⟩
  | error error =>
    obtain ⟨cursor, hfailed⟩ := h.of_error hrun
    cases (hcode.unique hfailed).1

end Does

end Code

/-- A call does what the reading of its routine does, and takes text if it returns. A turn
of a loop takes text if there is to be another one. -/
def Moment.Progresses : Moment → Prop
  | ⟨.call routine, machine⟩ =>
    (Code.call routine).Does machine (routine.reading (nestingLimit - machine.levels)) ∧
      ∀ a after, (Code.call routine).Ends machine (.ok a) after →
        after.cursor.Beyond machine.cursor
  | ⟨.loop turn state, machine⟩ => ∀ next after,
    (turn state).Ends machine (.ok (some next)) after → after.cursor.Beyond machine.cursor
  | _ => True

/-- No more levels are open than there may be, and no more calls than `calls`. The code
ends, closes what it opens and takes text where it has to. -/
structure Moment.Sound (calls : Nat) (moment : Moment) : Prop where
  levels : moment.machine.levels ≤ nestingLimit
  calls : moment.machine.calls ≤ calls
  ends : ∃ outcome cursor, moment.code.Ends moment.machine outcome { moment.machine with cursor }
  progresses : moment.Progresses

theorem Moment.Sound.mono {moment : Moment} {calls more : Nat} (h : moment.Sound calls)
    (hle : calls ≤ more) : moment.Sound more :=
  { h with calls := h.calls.trans hle }

/-- What holds at a moment and at all that its next moments come to, holds at all that it
comes to itself. -/
theorem Moment.sound_of_step {moment : Moment} {calls : Nat} (hself : moment.Sound calls)
    (hstep : ∀ next, moment.Step next → ∀ later, next.Reaches later → later.Sound calls) :
    ∀ later, moment.Reaches later → later.Sound calls := by
  intro later h
  rcases Relation.ReflTransGen.cases_head h with rfl | ⟨next, hnext, hlater⟩
  · exact hself
  · exact hstep next hnext later hlater

/-! ## §3 Steps -/

/-- On every machine with `room` for more levels, the code does what the reading does, and is
sound at all that it comes to, with no more than `height` more calls open. -/
def Tracks (room height : Nat) (code : Code α) (reading : Reading α) : Prop :=
  ∀ machine : Machine, machine.levels + room = nestingLimit →
    code.Does machine reading ∧
      ∀ later, Moment.Reaches ⟨code, machine⟩ later → later.Sound (machine.calls + height)

namespace Tracks

variable {room height : Nat} {code : Code α} {reading : Reading α}

theorem mono {more : Nat} (h : Tracks room height code reading) (hle : height ≤ more) :
    Tracks room more code reading := by
  intro machine hroom
  obtain ⟨hdoes, hsound⟩ := h machine hroom
  exact ⟨hdoes, fun later hlater => (hsound later hlater).mono (Nat.add_le_add_left hle _)⟩

/-- Code that does what the reading does is sound if its next moments are. -/
theorem of_step {machine : Machine} (hroom : machine.levels + room = nestingLimit)
    (hdoes : code.Does machine reading) (hprogresses : Moment.Progresses ⟨code, machine⟩)
    (hstep : ∀ next, Moment.Step ⟨code, machine⟩ next →
      ∀ later, next.Reaches later → later.Sound (machine.calls + height)) :
    code.Does machine reading ∧
      ∀ later, Moment.Reaches ⟨code, machine⟩ later → later.Sound (machine.calls + height) :=
  ⟨hdoes, Moment.sound_of_step ⟨hroom ▸ Nat.le_add_right _ _, Nat.le_add_right _ _, hdoes.ends,
    hprogresses⟩ hstep⟩

theorem read (reading : Reading α) : Tracks room height (.read reading) reading := by
  intro machine hroom
  refine of_step hroom ?_ trivial fun next hnext => by cases hnext
  unfold Code.Does
  split
  · rename_i hrun
    exact .read hrun
  · rename_i hrun
    exact ⟨machine.cursor, .readFails hrun⟩

theorem bind {first : Code α} {rest : α → Code β} {r : Reading α} {f : α → Reading β}
    (hfirst : Tracks room height first r) (hrest : ∀ a, Tracks room height (rest a) (f a)) :
    Tracks room height (first >>= rest) (r >>= f) := by
  intro machine hroom
  obtain ⟨hdoes, hsound⟩ := hfirst machine hroom
  refine of_step hroom ?_ trivial fun next hnext => ?_
  · cases hr : r.run machine.cursor with
    | ok result =>
      obtain ⟨a, cursor⟩ := result
      exact (hrest a { machine with cursor } hroom).1.of_does (by rw [bind_run, hr])
        fun h => .andThen (hdoes.of_ok hr) h
    | error error =>
      obtain ⟨cursor, hfailed⟩ := hdoes.of_error hr
      unfold Code.Does
      rw [bind_run, hr]
      exact ⟨cursor, .firstFails hfailed⟩
  · cases hnext with
    | first => exact hsound
    | rest hends =>
      obtain ⟨cursor, -, rfl⟩ := hdoes.exists_cursor hends
      exact (hrest _ { machine with cursor } hroom).2

theorem map {f : α → β} (h : Tracks room height code reading) :
    Tracks room height (f <$> code) (f <$> reading) := by
  rw [map_eq_pure_bind f reading]
  exact h.bind fun a => read (pure (f a))

theorem ite {c : Prop} [Decidable c] {code other : Code α} {reading otherReading : Reading α}
    (h : Tracks room height code reading) (hother : Tracks room height other otherReading) :
    Tracks room height (if c then code else other) (if c then reading else otherReading) := by
  split
  · exact h
  · exact hother

/-- Where no more levels can be opened, one more is refused. -/
theorem level_full (body : Code α) :
    Tracks 0 height (.level body) (fail .nestsTooDeeply : Reading α) := by
  intro machine hroom
  have hfull : ¬ machine.levels < nestingLimit := by omega
  refine of_step hroom ⟨machine.cursor, .levelFails hfull⟩ trivial fun next hnext => ?_
  cases hnext with
  | inside hlevels => exact absurd hlevels hfull

/-- A level is closed again after its body, however that ends. -/
theorem level (h : Tracks room height code reading) :
    Tracks (room + 1) height (.level code) reading := by
  intro machine hroom
  have hlevels : machine.levels < nestingLimit := by omega
  obtain ⟨hdoes, hsound⟩ := h machine.openLevel (by simp only [Machine.openLevel]; omega)
  refine of_step hroom ?_ trivial fun next hnext => ?_
  · exact hdoes.of_does rfl fun h => (Code.Ends.level hlevels h :)
  · cases hnext with
    | inside => exact hsound

/-- A call is one more than those that its code makes. -/
theorem call (routine : Routine α) (h : Tracks room height routine.code (routine.reading room)) :
    Tracks room (height + 1) (.call routine) (routine.reading room) := by
  intro machine hroom
  obtain ⟨hdoes, hsound⟩ := h machine.openCall hroom
  have hcall : (Code.call routine).Does machine (routine.reading room) :=
    hdoes.of_does rfl fun h => (Code.Ends.call h :)
  have hbudget : nestingLimit - machine.levels = room := by omega
  refine of_step hroom hcall ⟨hbudget ▸ hcall, fun a after hends => ?_⟩ fun next hnext => ?_
  · obtain ⟨cursor, hread, rfl⟩ := hcall.exists_cursor hends
    exact routine.advances room hread
  · cases hnext with
    | called =>
      intro later hlater
      have hcalls : machine.openCall.calls + height = machine.calls + (height + 1) :=
        Nat.add_right_comm _ _ _
      exact hcalls ▸ hsound later hlater

end Tracks

/-! ## §4 Loops -/

/-- A turn that is to be followed by another one takes a part of the text. -/
def TakesText {σ : Type} (step : σ → Reading (Option α)) : Prop :=
  ∀ ⦃state c a c'⦄, (step state).run c = .ok (some a, c') → c'.Beyond c

theorem takesText_of_progresses {step : List α → Reading (Option α)} (hstep : Progresses step)
    (hstays : ∀ text items, Stays (ending text) (step items)) : TakesText step :=
  fun items c a c' h => ⟨suffix_of_stays (fun text => hstays text items) h,
    hstep items c a c' h⟩

/-- Takes turns as a loop does, but at most one for each byte of `bound`. -/
def loopFrom {σ : Type} (turn : σ → Reading (Option σ)) : (bound : Bytes) → σ → Reading σ
  | [], state => return state
  | _ :: bound, state => do
    match ← turn state with
    | none => return state
    | some next => loopFrom turn bound next

/-- Takes turns until one of them gives no state for the next: the text bounds them. -/
def loop {σ : Type} (turn : σ → Reading (Option σ)) (state : σ) : Reading σ := do
  loopFrom turn (0 :: (← get).rest) state

section Loops

variable {σ : Type} {room height : Nat}

theorem loopFrom_cons (turn : σ → Reading (Option σ)) (b : UInt8) (bound : Bytes) (state : σ)
    (c : Cursor) : (loopFrom turn (b :: bound) state).run c = match (turn state).run c with
      | .ok (none, c') => .ok (state, c')
      | .ok (some next, c') => (loopFrom turn bound next).run c'
      | .error error => .error error := by
  rw [loopFrom, bind_run]
  cases (turn state).run c with
  | ok result =>
    obtain ⟨found, c'⟩ := result
    cases found <;> rfl
  | error error => rfl

/-- A loop without a bound does what the bounded one does. The induction is on the bound:
every turn but the last takes a byte, so less and less text is left. -/
theorem tracks_loopFrom {code : σ → Code (Option σ)} {turn : σ → Reading (Option σ)}
    (hturn : ∀ state, Tracks room height (code state) (turn state)) (htakes : TakesText turn)
    (bound : Bytes) : ∀ (state : σ) (machine : Machine),
    machine.levels + room = nestingLimit → machine.cursor.rest.length < bound.length →
    (Code.loop code state).Does machine (loopFrom turn bound state) ∧
      ∀ later, Moment.Reaches ⟨.loop code state, machine⟩ later →
        later.Sound (machine.calls + height) := by
  induction bound with
  | nil =>
    intro state machine _ hlength
    simp at hlength
  | cons b bound ih =>
    intro state machine hroom hlength
    obtain ⟨hdoes, hsound⟩ := hturn state machine hroom
    have hagain {next : σ} {cursor : Cursor}
        (hrun : (turn state).run machine.cursor = .ok (some next, cursor)) :=
      ih next { machine with cursor } hroom
        (Nat.lt_of_lt_of_le (htakes hrun).shorter (Nat.le_of_lt_succ hlength))
    refine Tracks.of_step hroom ?_ (fun next after hrun => ?_) fun moment hmoment => ?_
    · cases hrun : (turn state).run machine.cursor with
      | error error =>
        obtain ⟨cursor, hfailed⟩ := hdoes.of_error hrun
        unfold Code.Does
        rw [loopFrom_cons, hrun]
        exact ⟨cursor, .turnFails hfailed⟩
      | ok result =>
        obtain ⟨found, cursor⟩ := result
        cases found with
        | none =>
          unfold Code.Does
          rw [loopFrom_cons, hrun]
          exact .lastTurn (hdoes.of_ok hrun)
        | some next =>
          exact (hagain hrun).1.of_does (by rw [loopFrom_cons, hrun])
            fun h => .turn (hdoes.of_ok hrun) h
    · obtain ⟨cursor, hread, rfl⟩ := hdoes.exists_cursor hrun
      exact htakes hread
    · cases hmoment with
      | turn => exact hsound
      | again hrun =>
        obtain ⟨cursor, hread, rfl⟩ := hdoes.exists_cursor hrun
        exact (hagain hread).2

theorem tracks_loop {code : σ → Code (Option σ)} {turn : σ → Reading (Option σ)}
    (hturn : ∀ state, Tracks room height (code state) (turn state)) (htakes : TakesText turn)
    (state : σ) : Tracks room height (.loop code state) (loop turn state) := fun machine hroom =>
  tracks_loopFrom hturn htakes (0 :: machine.cursor.rest) state machine hroom (Nat.lt_succ_self _)

/-- One turn of `many`, as a turn of a loop. -/
def itemTurn (step : List α → Reading (Option α)) (items : List α) : Reading (Option (List α)) :=
  Option.map (· :: items) <$> step items

theorem manyFrom_eq (step : List α → Reading (Option α)) (bound : Bytes) (items : List α) :
    manyFrom step bound items = List.reverse <$> loopFrom (itemTurn step) bound items := by
  induction bound generalizing items with
  | nil => rfl
  | cons b bound ih =>
    rw [manyFrom, loopFrom, itemTurn, map_bind, bind_map_left]
    refine bind_congr fun found => ?_
    cases found with
    | none => rfl
    | some item => exact ih (item :: items)

theorem many_eq (step : List α → Reading (Option α)) :
    many step = List.reverse <$> loop (itemTurn step) [] := by
  unfold many loop
  simp only [manyFrom_eq, map_bind]

theorem tracks_many {code : List α → Code (Option α)} {step : List α → Reading (Option α)}
    (hcode : ∀ items, Tracks room height (code items) (step items)) (htakes : TakesText step) :
    Tracks room height (Code.many code) (many step) := by
  rw [many_eq]
  refine (tracks_loop (fun items => (hcode items).map) (fun items c next c' h => ?_) []).map
  obtain ⟨found, hread, hfound⟩ := map_ok.mp h
  obtain ⟨item, rfl, -⟩ := Option.map_eq_some_iff.mp hfound
  exact htakes hread

end Loops

section Items

variable {room height : Nat} {item : List α → Code α} {reading : List α → Reading α}

theorem takesText_untilStep (closing : UInt8) (hadvances : ∀ items, Advances (reading items)) :
    TakesText (untilStep closing reading) := by
  intro items c a c' h
  obtain ⟨_, _, hskip, h⟩ := bind_ok.mp h
  obtain ⟨found, _, hpeek, h⟩ := bind_ok.mp h
  obtain ⟨rfl, rfl⟩ := peek_ok.mp hpeek
  split at h
  · exact (fail_ok.mp h).elim
  · split at h
    · cases (pure_ok.mp h).1
    · obtain ⟨_, hitem, -⟩ := map_ok.mp h
      exact beyond_of_skipBlanks hskip (hadvances items hitem)

theorem takesText_parenthesisedStep (hadvances : ∀ items, Advances (reading items)) :
    TakesText (parenthesisedStep reading) := by
  intro items c a c' h
  obtain ⟨_, _, hskip, h⟩ := bind_ok.mp h
  obtain ⟨found, _, hpeek, h⟩ := bind_ok.mp h
  obtain ⟨rfl, rfl⟩ := peek_ok.mp hpeek
  split at h
  · cases (pure_ok.mp h).1
  · obtain ⟨_, hitem, -⟩ := map_ok.mp h
    exact beyond_of_skipBlanks hskip (hadvances items hitem)

theorem tracks_itemsUntil (closing : UInt8)
    (hitem : ∀ items, Tracks room height (item items) (reading items))
    (hadvances : ∀ items, Advances (reading items)) :
    Tracks room height (Code.itemsUntil closing item) (itemsUntil closing reading) := by
  rw [itemsUntil_eq]
  refine tracks_many (fun items => ?_) (takesText_untilStep closing hadvances)
  refine (Tracks.read skipBlanks).bind fun _ => (Tracks.read peek).bind fun found => ?_
  cases found with
  | none => exact .read _
  | some b => exact .ite (.read (pure none)) (hitem items).map

theorem tracks_parenthesised (hitem : ∀ items, Tracks room height (item items) (reading items))
    (hadvances : ∀ items, Advances (reading items)) :
    Tracks room height (Code.parenthesised item) (parenthesised reading) := by
  rw [parenthesised_eq]
  have hmany : Tracks room height _ (many (parenthesisedStep reading)) :=
    tracks_many (fun items => (Tracks.read skipBlanks).bind fun _ => (Tracks.read peek).bind
      fun found => .ite (.read (pure none)) (hitem items).map)
      (takesText_parenthesisedStep hadvances)
  exact (Tracks.read _).bind fun _ => hmany.bind fun items => (Tracks.read _).bind
    fun _ => .read (pure items)

end Items

/-! ## §5 Scans -/

section Scans

variable {σ : Type} {room height : Nat} {next? : σ → UInt8 → Option σ}

/-- One turn of a scan. -/
def scanTurn (next? : σ → UInt8 → Option σ) (state : σ) : Reading (Option σ) := do
  match (← peek).bind (next? state) with
  | none => return none
  | some next =>
    advance
    return some next

theorem scanTurn_run (state : σ) (c : Cursor) :
    (scanTurn next? state).run c = match c.rest.head?.bind (next? state) with
      | none => .ok (none, c)
      | some next => .ok (some next, c.next) := by
  show (match c.rest.head?.bind (next? state) with
    | none => (pure none : Reading (Option σ))
    | some next => advance >>= fun _ => pure (some next)).run c = _
  cases c.rest.head?.bind (next? state) <;> rfl

theorem takesText_scanTurn : TakesText (scanTurn next?) := by
  intro state c next c' h
  rw [scanTurn_run] at h
  split at h
  · cases h
  · rename_i hnext
    obtain ⟨b, hb, -⟩ := Option.bind_eq_some_iff.mp hnext
    cases h
    exact beyond_next hb

/-- The reading of a state takes each byte that gives a next state, and reads on from that.
It finishes before any other byte and at the end of the text. -/
def GoesOn (next? : σ → UInt8 → Option σ) (finish reading : σ → Reading α) : Prop :=
  ∀ state c, (reading state).run c = match c.rest.head?.bind (next? state) with
    | none => (finish state).run c
    | some next => (reading next).run c.next

theorem GoesOn.eq_loop {finish reading : σ → Reading α} (h : GoesOn next? finish reading)
    (state : σ) : reading state = loop (scanTurn next?) state >>= finish := by
  have hfrom : ∀ (bound : Bytes) (state : σ) (c : Cursor), c.rest.length < bound.length →
      (reading state).run c = (loopFrom (scanTurn next?) bound state >>= finish).run c := by
    intro bound
    induction bound with
    | nil =>
      intro state c hlength
      simp at hlength
    | cons b bound ih =>
      intro state c hlength
      rw [h, bind_run, loopFrom_cons, scanTurn_run]
      cases hfound : c.rest.head?.bind (next? state) with
      | none => rfl
      | some next =>
        obtain ⟨b, hb, -⟩ := Option.bind_eq_some_iff.mp hfound
        have hshorter := (beyond_next hb).shorter
        have hrest := ih next c.next (Nat.lt_of_lt_of_le hshorter (Nat.le_of_lt_succ hlength))
        rw [bind_run] at hrest
        exact hrest
  funext c
  exact hfrom (0 :: c.rest) state c (Nat.lt_succ_self _)

theorem GoesOn.tracks {finish reading : σ → Reading α} (h : GoesOn next? finish reading)
    {code : σ → Code α} (hcode : ∀ state, Tracks room height (code state) (finish state))
    (state : σ) : Tracks room height (.loop (Scan.turn next?) state >>= code) (reading state) := by
  rw [h.eq_loop]
  refine (tracks_loop (fun state => ?_) takesText_scanTurn state).bind hcode
  refine (Tracks.read peek).bind fun found => ?_
  cases found.bind (next? state) with
  | none => exact .read (pure none)
  | some next => exact (Tracks.read advance).bind fun _ => .read (pure (some next))

theorem goesOn_skipFrom : GoesOn Scan.blank? (fun _ => pure ()) fun inComment =>
    (modify fun c => skipFrom inComment c.rest c.location : Reading Unit) := by
  intro inComment c
  obtain ⟨rest, location⟩ := c
  cases rest with
  | nil => rfl
  | cons b rest =>
    rw [List.head?_cons, Option.bind_some, Scan.blank?]
    show Except.ok ((), skipFrom inComment (b :: rest) location) = _
    rw [skipFrom]
    split_ifs <;> rfl

theorem goesOn_runFrom (member : UInt8 → Bool) :
    GoesOn (Scan.member? member) (fun taken => pure taken.reverse) fun taken =>
      (modifyGet fun c => runFrom member taken c.rest c.location : Reading Bytes) := by
  intro taken c
  obtain ⟨rest, location⟩ := c
  cases rest with
  | nil => rfl
  | cons b rest =>
    rw [List.head?_cons, Option.bind_some, Scan.member?]
    show Except.ok (runFrom member taken (b :: rest) location) = _
    rw [runFrom]
    split_ifs <;> rfl

theorem goesOn_hexDigits : GoesOn Scan.hexDigit?
    (fun state => if state.1 = 0 then pure state.2 else fail .invalidUnicodeEscape)
    fun state => hexDigits state.1 state.2 := by
  intro state c
  obtain ⟨left, value⟩ := state
  obtain ⟨rest, location⟩ := c
  cases left with
  | zero => cases rest <;> rfl
  | succ left =>
    cases rest with
    | nil => rfl
    | cons b rest =>
      have hpeek : peek.run ⟨b :: rest, location⟩ = .ok (some b, ⟨b :: rest, location⟩) := rfl
      rw [List.head?_cons, Option.bind_some, Scan.hexDigit?]
      show (hexDigits (left + 1) value).run _ = _
      rw [hexDigits, bind_run, hpeek]
      dsimp only [Option.bind_some]
      cases Escape.hexValue? b <;> rfl

theorem goesOn_continuation : GoesOn Scan.continuation?
    (fun state => if state.1 = 0 then pure state.2.reverse else fail .invalidUtf8)
    fun state => (state.2.reverse ++ ·) <$> continuation state.1 := by
  intro state c
  obtain ⟨left, taken⟩ := state
  obtain ⟨rest, location⟩ := c
  cases left with
  | zero =>
    show Except.ok (taken.reverse ++ [], _) = _
    rw [List.append_nil]
    cases rest <;> rfl
  | succ left =>
    cases rest with
    | nil => rfl
    | cons b rest =>
      rw [List.head?_cons, Option.bind_some, Scan.continuation?]
      show ((taken.reverse ++ ·) <$> if Utf8.isContinuation b then
          advance >>= fun _ => continuation left >>= fun more => pure (b :: more)
        else (fail .invalidUtf8 : Reading Bytes)).run ⟨b :: rest, location⟩ = _
      split
      · have hmore : (taken.reverse ++ ·) <$> (continuation left >>= fun more => pure (b :: more)) =
            ((b :: taken).reverse ++ ·) <$> continuation left := by
          simp only [map_eq_pure_bind, bind_assoc, pure_bind, List.reverse_cons, List.append_assoc,
            List.singleton_append]
        exact congrArg (fun r => r.run ⟨rest, location.after b rest⟩) hmore
      · rfl

theorem tracks_scan (scan : Scan α) : Tracks room height scan.code scan.reading := by
  cases scan with
  | blanks => exact goesOn_skipFrom.tracks (fun _ => .read (pure ())) false
  | run member => exact (goesOn_runFrom member).tracks (fun taken => .read (pure taken.reverse)) []
  | hexDigits count =>
    exact goesOn_hexDigits.tracks (fun _ => .ite (.read (pure _)) (.read _)) (count, 0)
  | continuation count =>
    have hnone : ([] ++ ·) <$> continuation count = continuation count := id_map _
    show Tracks room height _ (continuation count)
    rw [← hnone]
    exact goesOn_continuation.tracks (fun _ => .ite (.read (pure _)) (.read _)) (count, [])

end Scans

end Reading

end GraphQL
