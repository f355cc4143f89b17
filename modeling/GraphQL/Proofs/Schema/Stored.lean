/-
GraphQL.Proofs.Schema.Stored — defaults that are coerced, or refused.

  §1 Decisions  — steps that succeed or report a problem.
  §2 Storage    — arguments, fields and types with coerced defaults.
  §3 Parts      — the defaults of arguments and of fields.
  §4 Types      — the defaults of a type, stored in its place.
  §5 Schemas    — the defaults of all types.

Each default is coerced in a schema in which earlier ones are stored. Whether
it is taken is the same in the schema that was started with, so all are stored
exactly if each is taken as it is written there.
-/
import GraphQL.Proofs.Schema.Decided

namespace GraphQL

variable {m : Type → Type} [Monad m]

/-! ## §1 Decisions -/

namespace Build

/-- The step succeeds with a result of the kind if the rule is kept, and reports a
problem if it is not. -/
def Decides {α : Type} (step : Building m α) (rule : Prop) (kind : α → Prop) : Prop :=
  (rule ∧ ∃ a, step = pure a ∧ kind a) ∨
    (¬ rule ∧ ∃ problem, step = throw (.inconsistent problem))

namespace Decides

variable {α β : Type} {step : Building m α} {next : α → Building m β} {rule other : Prop}
  {kind : α → Prop} {after : β → Prop}

theorem pure {a : α} (hrule : rule) (h : kind a) :
    Decides (Pure.pure a : Building m α) rule kind := .inl ⟨hrule, a, rfl, h⟩

theorem iff (h : Decides step rule kind) (hrule : rule ↔ other) : Decides step other kind := by
  rw [Decides, ← hrule]
  exact h

theorem bind [LawfulMonad m] (h : Decides step rule kind)
    (hnext : ∀ a, kind a → Decides (next a) other after) :
    Decides (step >>= next) (rule ∧ other) after := by
  rcases h with ⟨hrule, a, rfl, ha⟩ | ⟨hrule, problem, rfl⟩
  · rw [pure_bind]
    exact (hnext a ha).iff (by simp [hrule])
  · exact .inr ⟨fun hboth => hrule hboth.1, problem, by simp⟩

theorem imp (h : Decides step rule kind) {kind' : α → Prop} (hkind : ∀ a, kind a → kind' a) :
    Decides step rule kind' := by
  rcases h with ⟨hrule, a, heq, ha⟩ | h
  · exact .inl ⟨hrule, a, heq, hkind a ha⟩
  · exact .inr h

theorem map [LawfulMonad m] (f : α → β) (h : Decides step rule kind)
    (hf : ∀ a, kind a → after (f a)) : Decides (step >>= fun a => Pure.pure (f a)) rule after :=
  (h.bind fun a ha => .pure trivial (hf a ha)).iff (by rw [and_true])

end Decides

end Build

/-! ## §2 Storage -/

/-- The argument as it is stored. Its default is what the written one was coerced to, in a
schema that differs from `schema` in the values of defaults at most. -/
structure Argument.StoredAs (schema : Schema m) (written stored : Argument) : Prop where
  same : stored = { written with default := stored.default }
  default : Option.Rel (fun value result => ∃ turn, schema.SameOutline turn ∧
    value.ComesTo turn written.type written.name result) written.default stored.default

/-- The field as it is stored. -/
structure FieldType.StoredAs (schema : Schema m) (written stored : FieldType m) : Prop where
  same : stored = { written with arguments := stored.arguments }
  arguments : List.Forall₂ (Argument.StoredAs schema) written.arguments stored.arguments

/-- What a type consists of as it is stored. -/
inductive TypeBody.StoredAs (schema : Schema m) : TypeBody m → TypeBody m → Prop
  | scalar (coerce : Coercer m) : StoredAs schema (.scalar coerce) (.scalar coerce)
  | object {fields stored : List (FieldType m)} :
    List.Forall₂ (FieldType.StoredAs schema) fields stored →
    StoredAs schema (.object fields) (.object stored)
  | inputObject {declared stored : List Argument} :
    List.Forall₂ (Argument.StoredAs schema) declared stored →
    StoredAs schema (.inputObject declared) (.inputObject stored)

/-- The type as it is stored. -/
structure NamedType.StoredAs (schema : Schema m) (written stored : NamedType m) : Prop where
  name : stored.name = written.name
  description : stored.description = written.description
  body : written.body.StoredAs schema stored.body

variable {schema : Schema m}

theorem Argument.StoredAs.outline {written stored : Argument} (h : written.StoredAs schema stored) :
    stored.outline = written.outline := by
  have hdefault := h.default
  rw [h.same]
  cases hwritten : written.default <;> cases hstored : stored.default <;>
    rw [hwritten, hstored] at hdefault <;> cases hdefault
  · simp [Argument.outline, hwritten]
  · simp [Argument.outline, hwritten]

theorem Argument.map_outline_of_stored {written stored : List Argument}
    (h : List.Forall₂ (StoredAs schema) written stored) :
    stored.map outline = written.map outline := by
  induction h with
  | nil => rfl
  | cons hfirst _ ih => rw [List.map_cons, List.map_cons, hfirst.outline, ih]

theorem TypeBody.StoredAs.outline {written stored : TypeBody m}
    (h : written.StoredAs schema stored) : written.outline = stored.outline := by
  cases h with
  | scalar coerce => rfl
  | object _ => rfl
  | inputObject hfields =>
    rw [TypeBody.outline, TypeBody.outline, Argument.map_outline_of_stored hfields]

/-! ## §3 Parts -/

namespace Build

variable [LawfulMonad m] {start turn : Schema m} (hsame : start.SameOutline turn)
  (hbodies : ∀ id body, start.body? id = some body → body.Closed start)
  (hpure : start.ScalarsPure)

include hsame hbodies hpure

/-- The default of an argument is stored if it is taken at the start, and reported if not. -/
theorem decides_settleArgument (part : DefinitionPart) {argument : Argument}
    (htakes : start.TakesInput argument.type.leaf) :
    Decides (settleArgument turn part argument) (argument.DefaultTaken start)
      (argument.StoredAs start) := by
  unfold settleArgument Argument.DefaultTaken
  cases hdefault : argument.default with
  | none =>
    refine .pure nofun ⟨rfl, ?_⟩
    rw [hdefault]
    exact .none
  | some value =>
    have hboth := value.coerce_alike hsame hbodies hpure none argument.type argument.name htakes
    have hrule : (∀ given, some value = some given →
        ∃ result, given.ComesTo start argument.type argument.name result) ↔
        ∃ result, value.ComesTo start argument.type argument.name result := by
      simp
    rw [hrule]
    dsimp only
    rcases Value.comesTo_or start turn hboth with
      ⟨hstart, result, issues, hcoerced⟩ | ⟨hstart, ⟨outcome, issues⟩, hcoerced, hnone⟩
    · refine .inl ⟨hstart, { argument with default := some result }, ?_, rfl, ?_⟩
      · rw [hcoerced, adapt_pure, pure_bind]
      · rw [hdefault]
        exact .some ⟨turn, hsame, issues, hcoerced⟩
    · refine .inr ⟨hstart, .invalidDefault part (turn.typeText argument.type), ?_⟩
      rw [hcoerced, adapt_pure, pure_bind]
      cases outcome with
      | ok result => exact absurd rfl (hnone result)
      | absent => rfl
      | failed => rfl

/-- So are the defaults of arguments, one after another. -/
theorem decides_settleArguments (part : Bytes → DefinitionPart) {declared : List Argument}
    (htake : ∀ argument ∈ declared, start.TakesInput argument.type.leaf) :
    Decides (settleArguments turn part declared)
      (∀ argument ∈ declared, argument.DefaultTaken start)
      (List.Forall₂ (Argument.StoredAs start) declared) := by
  induction declared with
  | nil => exact .pure nofun .nil
  | cons argument rest ih =>
    obtain ⟨hfirst, hrest⟩ := List.forall_mem_cons.1 htake
    unfold settleArguments
    refine ((decides_settleArgument hsame hbodies hpure _ hfirst).bind fun settled hsettled =>
      (ih hrest).map (settled :: ·) fun others hothers => ?_).iff List.forall_mem_cons.symm
    exact .cons hsettled hothers

/-- So are those of the arguments of fields. -/
theorem decides_settleFields (object : Bytes) {fields : List (FieldType m)}
    (htake : ∀ field ∈ fields, ∀ argument ∈ field.arguments,
      start.TakesInput argument.type.leaf) :
    Decides (settleFields turn object fields)
      (∀ field ∈ fields, ∀ argument ∈ field.arguments, argument.DefaultTaken start)
      fun arguments => List.Forall₂ (FieldType.StoredAs start) fields
        (FieldType.withArguments fields arguments) := by
  induction fields with
  | nil => exact .pure nofun .nil
  | cons field rest ih =>
    obtain ⟨hfirst, hrest⟩ := List.forall_mem_cons.1 htake
    unfold settleFields
    refine ((decides_settleArguments hsame hbodies hpure _ hfirst).bind fun arguments harguments =>
      (ih hrest).map (arguments :: ·) fun others hothers => ?_).iff
        (by rw [List.forall_mem_cons])
    exact .cons ⟨rfl, harguments⟩ hothers

end Build

/-! ## §4 Types -/

/-- The second schema has another type at a position. -/
structure Build.Stores (schema other : Schema m) (id : TypeId) (stored : NamedType m) : Prop where
  self : other.type? id = some stored
  others : ∀ owner, owner ≠ id → other.type? owner = schema.type? owner

namespace Build.Stores

variable {schema middle other : Schema m} {id : TypeId} {type stored : NamedType m}

omit [Monad m] in
theorem refl (h : schema.type? id = some type) : Stores schema schema id type :=
  ⟨h, fun _ _ => rfl⟩

omit [Monad m] in
theorem trans (h : Stores schema middle id type) (hother : Stores middle other id stored) :
    Stores schema other id stored :=
  ⟨hother.self, fun owner howner => (hother.others owner howner).trans (h.others owner howner)⟩

omit [Monad m] in
theorem alter {change : NamedType m → NamedType m}
    (hname : ∀ type, (change type).name = type.name) (h : schema.type? id = some type) :
    Stores schema (schema.alter id change hname) id (change type) :=
  ⟨Schema.type?_alter_self hname h, fun _ howner => Schema.type?_alter_of_ne hname howner⟩

end Build.Stores

namespace Build

variable [LawfulMonad m] {start : Schema m}
  (hbodies : ∀ id body, start.body? id = some body → body.Closed start)
  (hpure : start.ScalarsPure)

include hbodies hpure

/-- The defaults of input fields are stored one by one, each in the schema that the
earlier ones are stored in. -/
theorem decides_settleInputFields (input : Bytes) {current : Schema m} {id : TypeId}
    {type : NamedType m} {settled rest : List Argument} (hsame : start.SameOutline current)
    (htype : current.type? id = some type) (hbody : type.body = .inputObject (settled ++ rest))
    (htake : ∀ field ∈ rest, start.TakesInput field.type.leaf) :
    Decides (settleInputFields id input current settled.length rest)
      (∀ field ∈ rest, field.DefaultTaken start) fun next => ∃ stored fields,
        Stores current next id stored ∧ stored.name = type.name ∧
          stored.description = type.description ∧
          stored.body = .inputObject (settled ++ fields) ∧
          List.Forall₂ (Argument.StoredAs start) rest fields := by
  induction rest generalizing current type settled with
  | nil => exact .pure nofun ⟨type, [], .refl htype, rfl, rfl, hbody, .nil⟩
  | cons field rest ih =>
    obtain ⟨hfirst, hrest⟩ := List.forall_mem_cons.1 htake
    unfold settleInputFields
    refine ((decides_settleArgument hsame hbodies hpure _ hfirst).bind fun done hdone => ?_).iff
      List.forall_mem_cons.symm
    have hstores : Stores current (current.withDefault id settled.length done.default) id
        (type.withDefault settled.length done.default) := .alter _ htype
    have hnext := NamedType.body_withDefault hbody done.default
    rw [← hdone.same, List.append_cons] at hnext
    have hcurrent : current.body? id = some (.inputObject (settled ++ field :: rest)) := by
      rw [Schema.body?, htype, Option.map_some, hbody]
    have houtline := (replaces_withDefault hcurrent done.default).sameOutline (by
      rw [← hdone.same]
      simp [TypeBody.outline, hdone.outline])
    have hlater := ih (hsame.trans houtline) hstores.self hnext hrest
    rw [List.length_append, List.length_singleton] at hlater
    refine hlater.imp ?_
    rintro next ⟨stored, fields, hafter, hname, hdescription, hfields, hstored⟩
    refine ⟨stored, done :: fields, hstores.trans hafter, ?_, ?_, ?_, .cons hdone hstored⟩
    · rw [hname, NamedType.name_withDefault]
    · rw [hdescription, NamedType.description_withDefault]
    · rw [hfields, List.append_assoc, List.singleton_append]

/-- The defaults of the type at a position are stored in its place. -/
theorem decides_settleType {current : Schema m} {id : TypeId} {type : NamedType m}
    (hsame : start.SameOutline current) (htype : current.type? id = some type)
    (hclosed : type.body.Closed start) :
    Decides (settleType current id)
      (∀ argument ∈ type.body.arguments, argument.DefaultTaken start) fun next => ∃ stored,
        type.StoredAs start stored ∧ Stores current next id stored := by
  unfold settleType
  rw [htype]
  dsimp only
  cases hbody : type.body with
  | scalar coerce =>
    refine .pure (List.forall_mem_nil _) ⟨type, ⟨rfl, rfl, ?_⟩, .refl htype⟩
    rw [hbody]
    exact .scalar coerce
  | object fields =>
    rw [hbody] at hclosed
    have htake : ∀ field ∈ fields, ∀ argument ∈ field.arguments,
        start.TakesInput argument.type.leaf := fun field hfield => (hclosed field hfield).2
    refine ((decides_settleFields hsame hbodies hpure type.name htake).map _
      fun arguments hstored => ⟨type.withArguments arguments,
        ⟨type.name_withArguments arguments, type.description_withArguments arguments, ?_⟩,
        .alter _ htype⟩).iff ?_
    · simp only [TypeBody.arguments, List.mem_flatMap]
      constructor
      · rintro htaken argument ⟨field, hfield, hargument⟩
        exact htaken field hfield argument hargument
      · exact fun htaken field hfield argument hargument =>
          htaken argument ⟨field, hfield, hargument⟩
    · rw [hbody, NamedType.body_withArguments hbody]
      exact .object hstored
  | inputObject declared =>
    rw [hbody] at hclosed
    have hstart : type.body = .inputObject ([] ++ declared) := hbody
    refine (decides_settleInputFields hbodies hpure type.name hsame htype hstart hclosed).imp ?_
    rintro next ⟨stored, fields, hstores, hname, hdescription, hfields, hstored⟩
    refine ⟨stored, ⟨hname, hdescription, ?_⟩, hstores⟩
    rw [hbody, hfields]
    exact .inputObject hstored

end Build

/-! ## §5 Schemas -/

/-- The types before a position are stored, the others are as they are written. -/
structure Schema.StoredBelow (start current : Schema m) (count : TypeId) : Prop where
  stored : ∀ id, id < count →
    Option.Rel (NamedType.StoredAs start) (start.type? id) (current.type? id)
  written : ∀ id, count ≤ id → current.type? id = start.type? id

/-- All defaults are taken, each as it is written. -/
def Schema.DefaultsTaken (schema : Schema m) : Prop :=
  ∀ id body, schema.body? id = some body →
    ∀ argument ∈ body.arguments, argument.DefaultTaken schema

namespace Schema.StoredBelow

variable {start current : Schema m} {count : TypeId}

theorem zero (start : Schema m) : start.StoredBelow start 0 where
  stored _ h := absurd h (Nat.not_lt_zero _)
  written _ _ := rfl

theorem sameOutline (h : start.StoredBelow current count) : start.SameOutline current := by
  intro id
  unfold Schema.body?
  by_cases hid : id < count
  · have hstored := h.stored id hid
    generalize start.type? id = written, current.type? id = given at hstored
    cases hstored with
    | none => rfl
    | some htype => simp [htype.body.outline]
  · rw [h.written id (Nat.le_of_not_lt hid)]

/-- One more type is stored. -/
theorem succ (h : start.StoredBelow current count) {next : Schema m} {type stored : NamedType m}
    (htype : start.type? count = some type) (hstored : type.StoredAs start stored)
    (hnext : Build.Stores current next count stored) : start.StoredBelow next (count + 1) := by
  constructor
  · intro id hid
    by_cases heq : id = count
    · rw [heq, htype, hnext.self]
      exact .some hstored
    · rw [hnext.others id heq]
      exact h.stored id (Nat.lt_of_le_of_ne (Nat.le_of_lt_succ hid) heq)
  · intro id hid
    rw [hnext.others id (Nat.ne_of_gt hid)]
    exact h.written id (Nat.le_of_succ_le hid)

/-- Where no type is left there is nothing to store. -/
theorem skip (h : start.StoredBelow current count) (hnone : start.type? count = none) :
    start.StoredBelow current (count + 1) where
  stored id hid := by
    by_cases heq : id = count
    · rw [heq, h.written count (Nat.le_refl _), hnone]
      exact .none
    · exact h.stored id (Nat.lt_of_le_of_ne (Nat.le_of_lt_succ hid) heq)
  written id hid := h.written id (Nat.le_of_succ_le hid)

end Schema.StoredBelow

/-- The types as they are stored, each at its position. -/
def Schema.StoredAs (written stored : Schema m) : Prop :=
  ∀ id, Option.Rel (NamedType.StoredAs written) (written.type? id) (stored.type? id)

namespace Build

variable [LawfulMonad m] {start : Schema m}
  (hbodies : ∀ id body, start.body? id = some body → body.Closed start)
  (hpure : start.ScalarsPure)

include hbodies hpure

/-- The first types are stored exactly if their defaults are taken. -/
theorem decides_settleTypes (count : Nat) : Decides ((List.range count).foldlM settleType start)
    (∀ id < count, ∀ body, start.body? id = some body →
      ∀ argument ∈ body.arguments, argument.DefaultTaken start)
    (start.StoredBelow · count) := by
  induction count with
  | zero => exact .pure nofun (.zero start)
  | succ count ih =>
    rw [List.range_succ, List.foldlM_append]
    refine (ih.bind fun current hcurrent => ?_).iff Nat.forall_lt_succ_right.symm
    simp only [List.foldlM_cons, List.foldlM_nil, bind_pure]
    cases htype : start.type? count with
    | none =>
      have hbody : start.body? count = none := by rw [Schema.body?, htype, Option.map_none]
      unfold settleType
      rw [(hcurrent.written count (Nat.le_refl _)).trans htype]
      refine .pure (fun body heq => ?_) (hcurrent.skip htype)
      rw [hbody] at heq
      cases heq
    | some type =>
      have hbody : start.body? count = some type.body := by
        rw [Schema.body?, htype, Option.map_some]
      have hfound := (hcurrent.written count (Nat.le_refl _)).trans htype
      refine ((decides_settleType hbodies hpure hcurrent.sameOutline hfound
        (hbodies count _ hbody)).imp ?_).iff ?_
      · rintro next ⟨stored, hstored, hnext⟩
        exact hcurrent.succ htype hstored hnext
      · simp [hbody]

/-- All defaults are stored exactly if each of them is taken as it is written. -/
theorem decides_settleDefaults :
    Decides (settleDefaults start) start.DefaultsTaken start.StoredAs := by
  refine ((decides_settleTypes hbodies hpure start.types.length).imp ?_).iff ?_
  · intro final hstored id
    by_cases hid : id < start.types.length
    · exact hstored.stored id hid
    · have hnone : start.type? id = none := List.getElem?_eq_none (Nat.le_of_not_lt hid)
      rw [hstored.written id (Nat.le_of_not_lt hid), hnone]
      exact .none
  · exact ⟨fun h id body hbody => h id (Schema.lt_of_body? hbody) body hbody,
      fun h id _ => h id⟩

end Build

end GraphQL
