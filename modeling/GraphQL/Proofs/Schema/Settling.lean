/-
GraphQL.Proofs.Schema.Settling — defaults while they are coerced, one by one.

  §1 Turns    — the order in which defaults are coerced.
  §2 Steps    — one default, and the arguments of an object's fields.
  §3 Run      — what every turn preserves holds when all are over.
  §4 History  — each stored default, and the schema in which it had its turn.

Defaults are coerced in the order of types and of fields, each in a schema
where the earlier ones are coerced and the later ones are as they were written.
No default is touched before its turn or after it.
-/
import GraphQL.Proofs.Execution.Adapting
import GraphQL.Proofs.Input.FixedPoints
import GraphQL.Proofs.Schema.Outline

namespace GraphQL

open MonadAttach (CanReturn)
open LawfulMonadAttach (canReturn_bind_imp' eq_of_canReturn_pure)

/-! ## §1 Turns -/

/-- The default at a position of an input type has its turn before the one at
`index` of the type `id`. -/
def Before (owner position id index : Nat) : Prop :=
  owner < id ∨ (owner = id ∧ position < index)

namespace Before

variable {owner position id index : Nat}

/-- The turn of one more field of the same type. -/
theorem succ_iff : Before owner position id (index + 1) ↔
    Before owner position id index ∨ (owner = id ∧ position = index) := by
  unfold Before
  omega

/-- The turn of the next type. -/
theorem next_iff (index : Nat) : Before owner position (id + 1) 0 ↔
    Before owner position id index ∨ (owner = id ∧ index ≤ position) := by
  unfold Before
  omega

theorem not_zero : ¬ Before owner position 0 0 := by
  unfold Before
  omega

theorem irrefl : ¬ Before id index id index := by
  unfold Before
  omega

theorem trans {other place : Nat} (h : Before owner position other place)
    (hother : Before other place id index) : Before owner position id index := by
  unfold Before at *
  omega

/-- Induction along the order of turns. -/
theorem induction {P : Nat → Nat → Prop}
    (h : ∀ id index, (∀ owner position, Before owner position id index → P owner position) →
      P id index) (id index : Nat) : P id index := by
  induction id using Nat.strongRecOn generalizing index with
  | ind id ihType =>
    induction index using Nat.strongRecOn with
    | ind index ihField =>
      refine h id index fun owner position hbefore => ?_
      rcases hbefore with howner | ⟨rfl, hposition⟩
      · exact ihType owner howner position
      · exact ihField position hposition

end Before

/-! ## §2 Steps -/

variable {m : Type → Type} [Monad m] [LawfulMonad m] [MonadAttach m] [LawfulMonadAttach m]

namespace Build

theorem not_canReturn_throw {α : Type} {failure : BuildFailure} {a : α} :
    ¬ CanReturn (throw failure : Building m α) a := by
  intro h
  have heq : Except.error failure = Except.ok a := eq_of_canReturn_pure (m := m) h
  cases heq

end Build

/-- An argument before its turn and after it: its default, if it has one, is
coerced in the schema of that moment. -/
inductive SettledAs (schema : Schema m) (written : Argument) : Argument → Prop
  | unset : written.default = none → SettledAs schema written written
  | coerced {default result : Value} :
    written.default = some default → Coerces schema written.type default result →
    SettledAs schema written { written with default := some result }

omit [LawfulMonad m] [LawfulMonadAttach m] in
theorem SettledAs.outline {schema : Schema m} {written stored : Argument}
    (h : SettledAs schema written stored) : stored.outline = written.outline := by
  cases h with
  | unset => rfl
  | coerced hdefault _ => simp [Argument.outline, hdefault]

omit [LawfulMonad m] [LawfulMonadAttach m] in
/-- Nothing but the default is another one. -/
theorem SettledAs.same {schema : Schema m} {written stored : Argument}
    (h : SettledAs schema written stored) :
    { written with default := stored.default } = stored := by
  cases h with
  | unset => rfl
  | coerced => rfl

namespace Build

variable {schema : Schema m}

theorem settleArgument_settles {part : DefinitionPart} {argument settled : Argument}
    (h : CanReturn (settleArgument schema part argument) settled) :
    SettledAs schema argument settled := by
  unfold settleArgument at h
  cases hdefault : argument.default with
  | none =>
    rw [hdefault] at h
    cases eq_of_canReturn_pure h
    exact .unset hdefault
  | some default =>
    rw [hdefault] at h
    obtain ⟨⟨outcome, issues⟩, hcoerced, h⟩ := canReturn_bind_imp' h
    cases outcome with
    | absent => exact absurd h not_canReturn_throw
    | failed => exact absurd h not_canReturn_throw
    | ok result =>
      cases eq_of_canReturn_pure h
      exact .coerced hdefault (Value.coerces_of_canReturn (canReturn_adapt hcoerced))

theorem settleArguments_settle {part : Bytes → DefinitionPart} {declared settled : List Argument}
    (h : CanReturn (settleArguments schema part declared) settled) :
    List.Forall₂ (SettledAs schema) declared settled := by
  induction declared generalizing settled with
  | nil =>
    cases eq_of_canReturn_pure h
    exact .nil
  | cons argument declared ih =>
    obtain ⟨first, hfirst, h⟩ := canReturn_bind_imp' h
    obtain ⟨others, hothers, h⟩ := canReturn_bind_imp' h
    cases eq_of_canReturn_pure h
    exact .cons (settleArgument_settles hfirst) (ih hothers)

theorem settleFields_settle {object : Bytes} {fields : List (FieldType m)}
    {settled : List (List Argument)} (h : CanReturn (settleFields schema object fields) settled) :
    List.Forall₂ (fun field stored => List.Forall₂ (SettledAs schema) field.arguments
      stored.arguments) fields (FieldType.withArguments fields settled) := by
  induction fields generalizing settled with
  | nil =>
    cases eq_of_canReturn_pure h
    exact .nil
  | cons field fields ih =>
    obtain ⟨arguments, harguments, h⟩ := canReturn_bind_imp' h
    obtain ⟨others, hothers, h⟩ := canReturn_bind_imp' h
    cases eq_of_canReturn_pure h
    exact .cons (settleArguments_settle harguments) (ih hothers)

end Build

/-! ## §3 Run -/

/-- What goes on to hold while defaults have their turns: that of one field of an
input object, those of an object's arguments, and the end of a type's turns. -/
structure Build.TurnInvariant (holds : Schema m → TypeId → Nat → Prop) : Prop where
  field : ∀ {current next : Schema m} {id : TypeId} {before after : List Argument}
    {field settled : Argument}, holds current id before.length →
    Replaces current next id (.inputObject (before ++ field :: after))
      (.inputObject (before ++ settled :: after)) →
    SettledAs current field settled → holds next id (before.length + 1)
  object : ∀ {current next : Schema m} {id : TypeId} {fields settled : List (FieldType m)},
    holds current id 0 → Replaces current next id (.object fields) (.object settled) →
    List.Forall₂ (fun field stored => List.Forall₂ (SettledAs current) field.arguments
      stored.arguments) fields settled → holds next (id + 1) 0
  skip : ∀ {current : Schema m} {id : TypeId} {index : Nat}, holds current id index →
    (∀ position, index ≤ position → declaredAt? current.inputBody? id position = none) →
    (∀ fields, current.body? id ≠ some (.object fields)) → holds current (id + 1) 0

namespace Build.TurnInvariant

variable {holds : Schema m → TypeId → Nat → Prop} {current next : Schema m} {id : TypeId}

/-- The fields of an input object have their turns one after another. -/
theorem settleInputFields (h : TurnInvariant holds) {input : Bytes} {settled rest : List Argument}
    (hcurrent : holds current id settled.length)
    (hbody : current.body? id = some (.inputObject (settled ++ rest)))
    (hnext : CanReturn (Build.settleInputFields id input current settled.length rest) next) :
    holds next (id + 1) 0 := by
  induction rest generalizing current settled with
  | nil =>
    cases eq_of_canReturn_pure hnext
    refine h.skip hcurrent (fun position hposition => ?_) fun fields => ?_
    · rw [declaredAt?_of_inputObject (Schema.inputBody?_inputObject hbody), List.append_nil]
      exact List.getElem?_eq_none hposition
    · rw [hbody]
      simp
  | cons field rest ih =>
    obtain ⟨done, hdone, hnext⟩ := canReturn_bind_imp' hnext
    have hreplaces := replaces_withDefault hbody done.default
    rw [(settleArgument_settles hdone).same] at hreplaces
    have hlater := h.field hcurrent hreplaces (settleArgument_settles hdone)
    rw [← List.length_singleton (a := done), ← List.length_append] at hlater hnext
    refine ih hlater ?_ hnext
    rw [List.append_assoc, List.singleton_append]
    exact hreplaces.new

/-- So do the types. -/
theorem settleType (h : TurnInvariant holds) (hcurrent : holds current id 0)
    (hnext : CanReturn (Build.settleType current id) next) : holds next (id + 1) 0 := by
  unfold Build.settleType at hnext
  cases htype : current.type? id with
  | none =>
    rw [htype] at hnext
    cases eq_of_canReturn_pure hnext
    have hbody : current.body? id = none := by rw [Schema.body?, htype, Option.map_none]
    refine h.skip hcurrent (fun position _ => ?_) fun fields => ?_
    · unfold declaredAt? Schema.inputBody?
      rw [hbody]
    · rw [hbody]
      simp
  | some type =>
    rw [htype] at hnext
    obtain ⟨name, description, body, index, indexed⟩ := type
    have hbody : current.body? id = some body := by rw [Schema.body?, htype, Option.map_some]
    cases body with
    | scalar coerce =>
      cases eq_of_canReturn_pure hnext
      refine h.skip hcurrent (fun position _ => ?_) fun fields => ?_
      · unfold declaredAt? Schema.inputBody?
        rw [hbody]
      · rw [hbody]
        simp
    | inputObject declared =>
      have hfirst : holds current id ([] : List Argument).length := hcurrent
      exact h.settleInputFields hfirst hbody hnext
    | object fields =>
      obtain ⟨settled, hsettled, hnext⟩ := canReturn_bind_imp' hnext
      cases eq_of_canReturn_pure hnext
      exact h.object hcurrent (replaces_withArguments hbody settled) (settleFields_settle hsettled)

/-- What holds at the start and goes on to hold does so when all turns are over. -/
theorem settleDefaults (h : TurnInvariant holds) (hcurrent : holds current 0 0)
    (hnext : CanReturn (Build.settleDefaults current) next) :
    holds next current.types.length 0 := by
  unfold Build.settleDefaults at hnext
  generalize current.types.length = count at hnext ⊢
  induction count generalizing next with
  | zero =>
    cases eq_of_canReturn_pure hnext
    exact hcurrent
  | succ count ih =>
    rw [List.range_succ, List.foldlM_append] at hnext
    obtain ⟨mid, hmid, hnext⟩ := canReturn_bind_imp' hnext
    obtain ⟨last, hlast, hnext⟩ := canReturn_bind_imp' hnext
    cases eq_of_canReturn_pure hnext
    exact h.settleType (ih hmid) hlast

end Build.TurnInvariant

/-! ## §4 History -/

/-- A schema in which a default has its turn: earlier defaults are as they are
stored in the end, this one and later ones are as they were written. -/
structure Build.Midway (start final turn : Schema m) (id index : Nat) : Prop where
  outline : start.SameOutline turn
  stored : ∀ owner position, Before owner position id index →
    declaredAt? turn.inputBody? owner position = declaredAt? final.inputBody? owner position
  written : ∀ owner position, ¬ Before owner position id index →
    declaredAt? turn.inputBody? owner position = declaredAt? start.inputBody? owner position

/-- How the defaults before position `index` of the type `id` were stored, and
that the others are as they were written. -/
structure Build.History (start current : Schema m) (id index : Nat) : Prop where
  midway : Midway start current current id index
  inputs : ∀ owner position field, Before owner position id index →
    declaredAt? start.inputBody? owner position = some field →
    ∃ turn stored, Midway start current turn owner position ∧ SettledAs turn field stored ∧
      declaredAt? current.inputBody? owner position = some stored
  objects : ∀ owner fields, owner < id → start.body? owner = some (.object fields) →
    ∃ turn stored, Midway start current turn owner 0 ∧
      current.body? owner = some (.object stored) ∧
      List.Forall₂ (fun field stored => List.Forall₂ (SettledAs turn) field.arguments
        stored.arguments) fields stored
  untouched : ∀ owner fields, id ≤ owner → start.body? owner = some (.object fields) →
    current.body? owner = some (.object fields)

namespace Build

variable {start current next turn : Schema m} {id index owner position : Nat}

omit [LawfulMonad m] [LawfulMonadAttach m]

theorem History.begin (start : Schema m) : History start start 0 0 where
  midway := ⟨.refl start, fun _ _ _ => rfl, fun _ _ _ => rfl⟩
  inputs _ _ _ h := absurd h Before.not_zero
  objects _ _ h := absurd h (Nat.not_lt_zero _)
  untouched _ _ _ h := h

/-- What comes after a turn does not matter for it. -/
theorem Midway.later (h : Midway start current turn owner position)
    (hsame : ∀ other place, Before other place owner position →
      declaredAt? next.inputBody? other place = declaredAt? current.inputBody? other place) :
    Midway start next turn owner position where
  outline := h.outline
  stored other place hbefore :=
    (h.stored other place hbefore).trans (hsame other place hbefore).symm
  written := h.written

/-- One more field of an input object has had its turn. -/
theorem History.field {before after : List Argument} {field settled : Argument}
    (h : History start current id before.length)
    (hreplaces : Replaces current next id (.inputObject (before ++ field :: after))
      (.inputObject (before ++ settled :: after)))
    (hsettled : SettledAs current field settled) : History start next id (before.length + 1) := by
  have houtline : current.SameOutline next :=
    hreplaces.sameOutline (by simp [TypeBody.outline, hsettled.outline])
  have hself : declaredAt? next.inputBody? id before.length = some settled := by
    rw [declaredAt?_of_inputObject (Schema.inputBody?_inputObject hreplaces.new)]
    simp
  have hwritten : declaredAt? current.inputBody? id before.length = some field := by
    rw [declaredAt?_of_inputObject (Schema.inputBody?_inputObject hreplaces.old)]
    simp
  -- The earlier fields are not the one that is settled now.
  have hearlier : ∀ other place, Before other place id before.length →
      declaredAt? next.inputBody? other place = declaredAt? current.inputBody? other place := by
    intro other place hbefore
    refine hreplaces.declaredAt?_of_ne ?_
    rintro ⟨rfl, rfl⟩
    exact Before.irrefl hbefore
  constructor
  case midway =>
    refine ⟨h.midway.outline.trans houtline, fun _ _ _ => rfl, fun other place hlater => ?_⟩
    have hne : ¬ (other = id ∧ place = before.length) := fun heq =>
      hlater (Before.succ_iff.2 (.inr heq))
    rw [hreplaces.declaredAt?_of_ne hne]
    exact h.midway.written other place fun hbefore => hlater (Before.succ_iff.2 (.inl hbefore))
  case inputs =>
    intro other place given hbefore hgiven
    rcases Before.succ_iff.1 hbefore with hbefore | ⟨rfl, rfl⟩
    · obtain ⟨turn, stored, hmidway, hstored, hfound⟩ := h.inputs other place given hbefore hgiven
      refine ⟨turn, stored, hmidway.later fun _ _ hother => ?_, hstored, ?_⟩
      · exact hearlier _ _ (hother.trans hbefore)
      · rw [hearlier other place hbefore, hfound]
    · rw [← h.midway.written _ _ Before.irrefl, hwritten] at hgiven
      cases hgiven
      exact ⟨current, settled, h.midway.later hearlier, hsettled, hself⟩
  case objects =>
    intro other fields hother hobject
    obtain ⟨turn, stored, hmidway, hbody, hstored⟩ := h.objects other fields hother hobject
    refine ⟨turn, stored, hmidway.later fun _ _ hbefore => ?_, ?_, hstored⟩
    · exact hearlier _ _ (hbefore.trans (.inl hother))
    · rw [hreplaces.others other (Nat.ne_of_lt hother), hbody]
  case untouched =>
    intro other fields hother hobject
    have hbody := h.untouched other fields hother hobject
    have hne : other ≠ id := by
      rintro rfl
      rw [hreplaces.old] at hbody
      cases hbody
    rw [hreplaces.others other hne, hbody]

/-- It is the turn of the next type when this one has no more input fields, and
its arguments, if it is an object, are settled. -/
theorem History.nextType (h : History start current id index)
    (hdone : ∀ place, index ≤ place → declaredAt? current.inputBody? id place = none)
    (houtline : current.SameOutline next) (hinput : next.inputBody? = current.inputBody?)
    (hothers : ∀ other, other ≠ id → next.body? other = current.body? other)
    (hself : ∀ fields, start.body? id = some (.object fields) →
      ∃ turn stored, Midway start next turn id 0 ∧ next.body? id = some (.object stored) ∧
        List.Forall₂ (fun field stored => List.Forall₂ (SettledAs turn) field.arguments
          stored.arguments) fields stored) : History start next (id + 1) 0 := by
  have hnone : ∀ place, index ≤ place → declaredAt? start.inputBody? id place = none := by
    intro place hplace
    rw [← h.midway.written id place, hdone place hplace]
    rintro (hlt | ⟨_, hlt⟩)
    · exact Nat.lt_irrefl _ hlt
    · exact Nat.not_lt_of_le hplace hlt
  constructor
  case midway =>
    refine ⟨h.midway.outline.trans houtline, fun _ _ _ => rfl, fun other place hlater => ?_⟩
    rw [hinput]
    exact h.midway.written other place fun hbefore =>
      hlater ((Before.next_iff index).2 (.inl hbefore))
  case inputs =>
    intro other place given hbefore hgiven
    rcases (Before.next_iff index).1 hbefore with hbefore | ⟨rfl, hplace⟩
    · obtain ⟨turn, stored, hmidway, hstored, hfound⟩ := h.inputs other place given hbefore hgiven
      refine ⟨turn, stored, hmidway.later fun _ _ _ => ?_, hstored, ?_⟩
      · rw [hinput]
      · rw [hinput, hfound]
    · rw [hnone place hplace] at hgiven
      cases hgiven
  case objects =>
    intro other fields hother hobject
    by_cases heq : other = id
    · subst heq
      exact hself fields hobject
    · have hlt := Nat.lt_of_le_of_ne (Nat.le_of_lt_succ hother) heq
      obtain ⟨turn, stored, hmidway, hbody, hstored⟩ := h.objects other fields hlt hobject
      refine ⟨turn, stored, hmidway.later fun _ _ _ => ?_, ?_, hstored⟩
      · rw [hinput]
      · rw [hothers other heq, hbody]
  case untouched =>
    intro other fields hother hobject
    rw [hothers other (Nat.ne_of_gt hother)]
    exact h.untouched other fields (Nat.le_of_succ_le hother) hobject

/-- The arguments of an object's fields have had their turn. -/
theorem History.object {fields settled : List (FieldType m)} (h : History start current id 0)
    (hreplaces : Replaces current next id (.object fields) (.object settled))
    (hsettled : List.Forall₂ (fun field stored => List.Forall₂ (SettledAs current) field.arguments
      stored.arguments) fields settled) : History start next (id + 1) 0 := by
  -- An object takes no input, so the input types are what they were.
  have hinput : next.inputBody? = current.inputBody? := by
    funext other
    by_cases hother : other = id
    · rw [hother]
      unfold Schema.inputBody?
      rw [hreplaces.new, hreplaces.old]
    · exact hreplaces.inputBody?_of_ne hother
  refine h.nextType (fun place _ => ?_) (hreplaces.sameOutline rfl) hinput hreplaces.others
    fun given hgiven => ?_
  · unfold declaredAt? Schema.inputBody?
    rw [hreplaces.old]
  · have hsame := h.untouched id given (Nat.le_refl _) hgiven
    rw [hreplaces.old] at hsame
    cases hsame
    refine ⟨current, settled, h.midway.later fun _ _ _ => ?_, hreplaces.new, hsettled⟩
    rw [hinput]

/-- A type without defaults left has had its turn. -/
theorem History.skip (h : History start current id index)
    (hdone : ∀ place, index ≤ place → declaredAt? current.inputBody? id place = none)
    (hobject : ∀ fields, current.body? id ≠ some (.object fields)) :
    History start current (id + 1) 0 := by
  refine h.nextType hdone (.refl current) rfl (fun _ _ => rfl) fun fields hfields => ?_
  exact absurd (h.untouched id fields (Nat.le_refl _) hfields) (hobject fields)

end Build

/-- Every default of a schema whose defaults are settled was stored in its turn. -/
theorem Build.history_settleDefaults {start final : Schema m}
    (h : CanReturn (settleDefaults start) final) :
    History start final start.types.length 0 := by
  have hinvariant : TurnInvariant (History start) := by
    constructor
    case field => exact fun hhistory hreplaces hsettled => hhistory.field hreplaces hsettled
    case object => exact fun hhistory hreplaces hsettled => hhistory.object hreplaces hsettled
    case skip => exact fun hhistory hdone hobject => hhistory.skip hdone hobject
  exact hinvariant.settleDefaults (.begin start) h

end GraphQL
