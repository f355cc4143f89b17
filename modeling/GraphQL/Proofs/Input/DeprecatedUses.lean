/-
GraphQL.Proofs.Input.DeprecatedUses — the deprecated fields in a value.

  §1 Uses        — a deprecated field that has a member, and the steps to it.
  §2 Values      — uses in a value as it stands, and as defaults complete it.
  §3 Selection   — uses that are left out or changed, the same at every depth.
  §4 Distinction — no two uses in a value are at the same place.
  §5 Places      — the uses listed are the deprecated fields in the value.

One traversal lists the uses. It has two parameters: what a field without
member adds, and the step to a value that stands for a list of one. A value as
it stands and the same value completed differ in these alone.
-/
import GraphQL.Proofs.Input.FixedPoints
import Mathlib.Data.List.Nodup

namespace GraphQL

/-! ## §1 Uses -/

/-- A step from a value to one of its parts. -/
inductive InputStep where
  | field (name : Bytes)
  | item (index : Nat)
  /-- The value itself, which stands for a list of one. -/
  | sole
deriving DecidableEq

namespace InputStep

/-- The path of a part. What stands for a list of one has the path of the list. -/
def extend (path : Bytes) : InputStep → Bytes
  | .field name => partPath path name
  | .item index => partPath path (decimal index)
  | .sole => path

/-- The step in a coerced value, where what stood for a list of one is its item. -/
def settled : InputStep → InputStep
  | .sole => .item 0
  | step => step

end InputStep

/-- A deprecated field that has a member, with the steps to it from the whole
value. It is filled if a default put the member there. -/
structure DeprecatedUse where
  steps : List InputStep
  type : TypeExpr TypeId
  deprecation : Deprecation
  filled : Bool

namespace DeprecatedUse

/-- A use in a part as a use in the whole. -/
def under (step : InputStep) (use : DeprecatedUse) : DeprecatedUse :=
  { use with steps := step :: use.steps }

/-- The use of a field, if it is deprecated. -/
def own (field : Argument) : List DeprecatedUse :=
  match field.deprecation with
  | none => []
  | some deprecation => [⟨[], field.type, deprecation, false⟩]

/-- The use of a field, if it is deprecated, and the uses in its member. -/
def ofField (field : Argument) (inside : List DeprecatedUse) : List DeprecatedUse :=
  (own field ++ inside).map (under (.field field.name))

/-- The use as one that a default has added. -/
def fromDefault (use : DeprecatedUse) : DeprecatedUse := { use with filled := true }

/-- The use, whatever has put the member there. -/
def asGiven (use : DeprecatedUse) : DeprecatedUse := { use with filled := false }

/-- The use with its steps in the coerced value. -/
def settled (use : DeprecatedUse) : DeprecatedUse :=
  { use with steps := use.steps.map InputStep.settled }

/-- What is said of a use in an argument, or in a part of one, at the path. -/
def message {m : Type → Type} (schema : Schema m) (path : Bytes) (use : DeprecatedUse) :
    Message :=
  .inputDeprecated .argumentInput (use.steps.foldl InputStep.extend path)
    (schema.displayText use.type) use.deprecation

/-- What is said of uses in a part is said under the path of the part. -/
theorem map_message_under {m : Type → Type} (schema : Schema m) (path : Bytes) (step : InputStep)
    (uses : List DeprecatedUse) : (uses.map (.under step)).map (message schema path) =
      uses.map (message schema (step.extend path)) := by
  rw [List.map_map]
  rfl

end DeprecatedUse

/-! ## §2 Values -/

/-- The uses in a value that awaits its type. -/
abbrev Usage := TypeExpr TypeId → List DeprecatedUse

namespace Usage

/-- What is no list, given its uses at named types, and the step to it where it
stands for a list of one. -/
def single (one : InputStep) (atName : TypeId → List DeprecatedUse) : Usage
  | .list element | .nonNull (.list element) => (single one atName element).map (.under one)
  | type => atName type.leaf

/-- The items of a list, from a position on. -/
def items (element : TypeExpr TypeId) : Nat → List Usage → List DeprecatedUse
  | _, [] => []
  | index, item :: rest =>
    (item element).map (.under (.item index)) ++ items element (index + 1) rest

/-- A list, which has uses at list types only. -/
def list (usages : List Usage) : Usage := fun type =>
  match type.nullable with
  | .list element => items element 0 usages
  | _ => []

/-- One declared field of an object, where `fill` has the uses of a field without member. -/
def field (fill : Argument → List DeprecatedUse) (members : List (Bytes × Usage))
    (field : Argument) : List DeprecatedUse :=
  match members.lookup field.name with
  | some usage => DeprecatedUse.ofField field (usage field.type)
  | none => fill field

/-- An object, which has uses at input object types only. -/
def object {m : Type → Type} (schema : Schema m) (one : InputStep)
    (fill : Argument → List DeprecatedUse) (members : List (Bytes × Usage)) : Usage :=
  single one fun id => match schema.body? id with
    | some (.inputObject declared) => declared.flatMap (Usage.field fill members)
    | _ => []

theorem single_nonNull (one : InputStep) (atName : TypeId → List DeprecatedUse)
    (inner : TypeExpr TypeId) : single one atName (.nonNull inner) =
      single one atName inner.unmarked := by
  cases inner <;> rfl

theorem list_nonNull (usages : List Usage) (inner : TypeExpr TypeId) :
    list usages (.nonNull inner) = list usages inner.unmarked := by
  cases inner <;> rfl

/-- The uses in a list are those in its items. -/
theorem mem_items {element : TypeExpr TypeId} {index : Nat} {usages : List Usage}
    {use : DeprecatedUse} : use ∈ items element index usages ↔
      ∃ (position : Nat) (usage : Usage) (part : DeprecatedUse), usages[position]? = some usage ∧
        part ∈ usage element ∧ use = part.under (.item (index + position)) := by
  induction usages generalizing index with
  | nil => simp [items]
  | cons first rest ih =>
    rw [items, List.mem_append, List.mem_map, ih]
    constructor
    · rintro (⟨part, hpart, rfl⟩ | ⟨position, usage, part, husage, hpart, rfl⟩)
      · exact ⟨0, first, part, rfl, hpart, rfl⟩
      · refine ⟨position + 1, usage, part, husage, hpart, ?_⟩
        rw [Nat.add_assoc, Nat.add_comm 1]
    · rintro ⟨position, usage, part, husage, hpart, rfl⟩
      cases position with
      | zero =>
        cases husage
        exact .inl ⟨part, hpart, rfl⟩
      | succ position =>
        refine .inr ⟨position, usage, part, husage, hpart, ?_⟩
        rw [Nat.add_assoc, Nat.add_comm 1]

end Usage

namespace Value

section

variable {m : Type → Type} (schema : Schema m) (one : InputStep)
  (fill : Argument → List DeprecatedUse)

mutual

/-- The uses in a value, where what is no list has the step `one` in its place as
a list of one, and a field without member has the uses that `fill` says. -/
def usage : Value → Usage
  | .list items => Usage.list (itemsUsage items)
  | .object members => Usage.object schema one fill (membersUsage members)
  | _ => fun _ => []

/-- The uses in the items of a list. -/
def itemsUsage : List Value → List Usage
  | [] => []
  | item :: rest => usage item :: itemsUsage rest

/-- The uses in the members of an object. -/
def membersUsage : List (Bytes × Value) → List (Bytes × Usage)
  | [] => []
  | (key, value) :: rest => (key, usage value) :: membersUsage rest

end

end

/-- The deprecated fields that a value of the type contains itself, at every depth. -/
def deprecatedUses {m : Type → Type} (schema : Schema m) (value : Value) : Usage :=
  value.usage schema .sole fun _ => []

end Value

/-- The uses that a field without member has for its default, which is filled in
as it stands. -/
def Schema.filledUses {m : Type → Type} (schema : Schema m) (field : Argument) :
    List DeprecatedUse :=
  match field.default with
  | some default => (DeprecatedUse.ofField field (default.deprecatedUses schema field.type)).map
      .fromDefault
  | none => []

/-- The uses in a value and in the defaults that complete it, in the order of the
coerced value and with the steps in it. -/
def Value.completedUses {m : Type → Type} (schema : Schema m) (value : Value) : Usage :=
  value.usage schema (.item 0) schema.filledUses

namespace Value

variable {m : Type → Type} {schema : Schema m} {one : InputStep}
  {fill : Argument → List DeprecatedUse}

theorem usage_nonNull (value : Value) (inner : TypeExpr TypeId) :
    value.usage schema one fill (.nonNull inner) =
      value.usage schema one fill inner.unmarked := by
  cases value <;> simp [usage, Usage.list_nonNull, Usage.object, Usage.single_nonNull]

theorem usage_single {value : Value} (h : value.isList = false) (element : TypeExpr TypeId) :
    value.usage schema one fill (.list element) =
      (value.usage schema one fill element).map (.under one) := by
  cases value with
  | list items => cases h
  | _ => simp [usage, Usage.object, Usage.single]

theorem usage_leaf {value : Value} (h : value.isLeaf = true) (type : TypeExpr TypeId) :
    value.usage schema one fill type = [] := by
  cases value with
  | list items => cases h
  | object members => cases h
  | _ => simp [usage]

theorem usage_scalar {id : TypeId} {coerce : Coercer m}
    (h : schema.body? id = some (.scalar coerce)) (value : Value) :
    value.usage schema one fill (.named id) = [] := by
  cases value <;>
    simp [usage, Usage.list, Usage.object, Usage.single, TypeExpr.nullable, TypeExpr.leaf, h]

theorem usage_object {id : TypeId} {declared : List Argument}
    (h : schema.body? id = some (.inputObject declared)) (members : Members) :
    (Value.object members).usage schema one fill (.named id) =
      declared.flatMap (Usage.field fill (membersUsage schema one fill members)) := by
  simp [usage, Usage.object, Usage.single, TypeExpr.leaf, h]

theorem lookup_membersUsage (name : Bytes) (members : Members) :
    (membersUsage schema one fill members).lookup name =
      (members.lookup name).map (usage schema one fill) := by
  induction members with
  | nil => rfl
  | cons member rest ih =>
    obtain ⟨key, value⟩ := member
    rw [membersUsage, List.lookup_cons, List.lookup_cons, ih]
    cases name == key <;> rfl

end Value

/-! ## §3 Selection -/

/-- A choice of uses, each changed in a way of its own, that is the same for a use
in a part as for the use in the whole, but for the step between them. -/
structure DeprecatedUse.Selects (change : InputStep → InputStep)
    (select : DeprecatedUse → Option DeprecatedUse) : Prop where
  field : ∀ name, change (.field name) = .field name
  item : ∀ index, change (.item index) = .item index
  under : ∀ step use, select (use.under step) = (select use).map (.under (change step))
  own : ∀ type deprecation,
    select ⟨[], type, deprecation, false⟩ = some ⟨[], type, deprecation, false⟩

namespace DeprecatedUse.Selects

variable {m : Type → Type} {schema : Schema m} {change : InputStep → InputStep}
  {select : DeprecatedUse → Option DeprecatedUse} (h : Selects change select)

include h

theorem filterMap_under (step : InputStep) (uses : List DeprecatedUse) :
    (uses.map (.under step)).filterMap select =
      (uses.filterMap select).map (.under (change step)) := by
  rw [List.filterMap_map, List.map_filterMap]
  refine List.filterMap_congr fun use _ => ?_
  rw [Function.comp_apply, h.under]

theorem filterMap_own (field : Argument) :
    (DeprecatedUse.own field).filterMap select = DeprecatedUse.own field := by
  unfold DeprecatedUse.own
  cases field.deprecation with
  | none => rfl
  | some deprecation => simp [h.own]

theorem filterMap_ofField (field : Argument) (inside : List DeprecatedUse) :
    (ofField field inside).filterMap select = ofField field (inside.filterMap select) := by
  rw [ofField, h.filterMap_under, List.filterMap_append, h.filterMap_own, h.field]
  rfl

theorem single (one : InputStep) (atName : TypeId → List DeprecatedUse)
    (type : TypeExpr TypeId) : (Usage.single one atName type).filterMap select =
      Usage.single (change one) (fun id => (atName id).filterMap select) type := by
  induction type using TypeExpr.reading with
  | named id => rfl
  | nonNull inner ih => rw [Usage.single_nonNull, Usage.single_nonNull, ih]
  | list element ih => rw [Usage.single, h.filterMap_under, ih, Usage.single]

variable {one : InputStep} {fill : Argument → List DeprecatedUse}

mutual

/-- Uses are selected in a value as they are in its parts and in what completes it. -/
theorem usage : ∀ (value : Value) (type : TypeExpr TypeId),
    (value.usage schema one fill type).filterMap select =
      value.usage schema (change one) (fun field => (fill field).filterMap select) type
  | .list values, type => by
    unfold Value.usage
    induction type using TypeExpr.reading with
    | named id => rfl
    | nonNull inner ih => rw [Usage.list_nonNull, Usage.list_nonNull, ih]
    | list element => exact items values element 0
  | .object members, type => by
    unfold Value.usage Usage.object
    rw [h.single]
    congr 1
    funext id
    split
    · rw [List.filterMap_flatMap]
      exact List.flatMap_congr fun field _ => fields members field
    · rfl
  | .null, _ | .bool _, _ | .int _, _ | .uint _, _ | .float _, _ | .string _, _ => by
    simp [Value.usage]

/-- So they are in the items of a list. -/
theorem items : ∀ (values : List Value) (element : TypeExpr TypeId) (index : Nat),
    (Usage.items element index (Value.itemsUsage schema one fill values)).filterMap select =
      Usage.items element index (Value.itemsUsage schema (change one)
        (fun field => (fill field).filterMap select) values)
  | [], _, _ => rfl
  | value :: rest, element, index => by
    simp only [Value.itemsUsage, Usage.items, List.filterMap_append]
    rw [h.filterMap_under, h.item, usage value element, items rest element (index + 1)]

/-- So they are in the fields of an object. -/
theorem fields : ∀ (members : List (Bytes × Value)) (field : Argument),
    (Usage.field fill (Value.membersUsage schema one fill members) field).filterMap select =
      Usage.field (fun field => (fill field).filterMap select)
        (Value.membersUsage schema (change one)
          (fun field => (fill field).filterMap select) members) field
  | [], _ => rfl
  | (key, value) :: rest, field => by
    have hrest := fields rest field
    unfold Usage.field at hrest ⊢
    rw [Value.membersUsage, Value.membersUsage, List.lookup_cons, List.lookup_cons]
    cases field.name == key with
    | true => simp only [h.filterMap_ofField, usage value field.type]
    | false => exact hrest

end

end DeprecatedUse.Selects

namespace DeprecatedUse

theorem selects_asGiven : Selects id fun use => some use.asGiven :=
  ⟨fun _ => rfl, fun _ => rfl, fun _ _ => rfl, fun _ _ => rfl⟩

theorem selects_settled : Selects InputStep.settled fun use => some use.settled :=
  ⟨fun _ => rfl, fun _ => rfl, fun _ _ => rfl, fun _ _ => rfl⟩

theorem selects_given : Selects id (Option.guard (!·.filled)) := by
  refine ⟨fun _ => rfl, fun _ => rfl, fun step use => ?_, fun _ _ => rfl⟩
  cases hfilled : use.filled <;> simp [Option.guard, under, hfilled]

theorem map_asGiven_ofField (field : Argument) (inside : List DeprecatedUse) :
    (ofField field inside).map .asGiven = ofField field (inside.map .asGiven) := by
  rw [← List.filterMap_eq_map]
  exact selects_asGiven.filterMap_ofField field inside

end DeprecatedUse

namespace Value

variable {m : Type → Type} {schema : Schema m}

/-- What a value contains itself is not filled. -/
theorem map_asGiven_deprecatedUses (value : Value) (type : TypeExpr TypeId) :
    (value.deprecatedUses schema type).map .asGiven = value.deprecatedUses schema type := by
  rw [← List.filterMap_eq_map]
  exact DeprecatedUse.selects_asGiven.usage value type

/-- The uses in a completed value that are not filled are those in the value
itself, with the steps to them in the coerced value. -/
theorem filter_completedUses (value : Value) (type : TypeExpr TypeId) :
    (value.completedUses schema type).filter (!·.filled) =
      (value.deprecatedUses schema type).map .settled := by
  -- Nothing that a default adds is left.
  have hfilled : ∀ field, (schema.filledUses field).filterMap (Option.guard (!·.filled)) = [] := by
    intro field
    unfold Schema.filledUses
    cases field.default with
    | none => rfl
    | some default => simp [List.filterMap_map, Function.comp_def, DeprecatedUse.fromDefault]
  rw [← List.filterMap_eq_filter, ← List.filterMap_eq_map]
  calc (value.completedUses schema type).filterMap (Option.guard (!·.filled))
    _ = value.usage schema (.item 0) (fun _ => []) type := by
      rw [Value.completedUses, DeprecatedUse.selects_given.usage]
      simp only [hfilled, id]
    _ = (value.deprecatedUses schema type).filterMap fun use => some use.settled := by
      rw [Value.deprecatedUses, DeprecatedUse.selects_settled.usage]
      rfl

end Value

/-! ## §4 Distinction -/

/-- The uses are at different places, none of them at the value as a whole. -/
structure UsesDiffer (uses : List DeprecatedUse) : Prop where
  proper : ∀ use ∈ uses, use.steps ≠ []
  nodup : (uses.map DeprecatedUse.steps).Nodup

namespace UsesDiffer

variable {uses : List DeprecatedUse}

theorem nil : UsesDiffer [] := ⟨by simp, by simp⟩

theorem nodup_under (h : (uses.map DeprecatedUse.steps).Nodup) (step : InputStep) :
    ((uses.map (DeprecatedUse.under step)).map DeprecatedUse.steps).Nodup := by
  have hsteps : (uses.map (DeprecatedUse.under step)).map DeprecatedUse.steps =
      (uses.map DeprecatedUse.steps).map (step :: ·) := by
    rw [List.map_map, List.map_map]
    rfl
  rw [hsteps]
  exact h.map fun _ _ heq => (List.cons.inj heq).2

theorem under (h : UsesDiffer uses) (step : InputStep) : UsesDiffer (uses.map (.under step)) where
  proper use huse := by
    obtain ⟨part, _, rfl⟩ := List.mem_map.1 huse
    exact List.cons_ne_nil _ _
  nodup := nodup_under h.nodup step

/-- Uses of two parts differ if they differ in each part and no step leads to both. -/
theorem append {others : List DeprecatedUse} (h : UsesDiffer uses) (hothers : UsesDiffer others)
    (hdisjoint : ∀ use ∈ uses, ∀ other ∈ others, use.steps ≠ other.steps) :
    UsesDiffer (uses ++ others) where
  proper use huse := (List.mem_append.1 huse).elim (h.proper use) (hothers.proper use)
  nodup := by
    rw [List.map_append]
    refine h.nodup.append hothers.nodup fun steps hsteps hagain => ?_
    obtain ⟨use, huse, rfl⟩ := List.mem_map.1 hsteps
    obtain ⟨other, hother, heq⟩ := List.mem_map.1 hagain
    exact hdisjoint use huse other hother heq.symm

/-- A field is used at another place than all that is in its member. -/
theorem ofField (h : UsesDiffer uses) (field : Argument) :
    UsesDiffer (DeprecatedUse.ofField field uses) where
  proper use huse := by
    obtain ⟨part, _, rfl⟩ := List.mem_map.1 huse
    exact List.cons_ne_nil _ _
  nodup := by
    refine nodup_under ?_ _
    unfold DeprecatedUse.own
    cases field.deprecation with
    | none => exact h.nodup
    | some deprecation =>
      refine List.nodup_cons.2 ⟨fun hmem => ?_, h.nodup⟩
      obtain ⟨use, huse, hsteps⟩ := List.mem_map.1 hmem
      exact h.proper use huse hsteps

end UsesDiffer

namespace Usage

variable {m : Type → Type} {schema : Schema m}

/-- The uses differ at every type. -/
def Distinct (usage : Usage) : Prop := ∀ type, UsesDiffer (usage type)

theorem Distinct.single {one : InputStep} {atName : TypeId → List DeprecatedUse}
    (hname : ∀ id, UsesDiffer (atName id)) : Distinct (single one atName) := by
  intro type
  induction type using TypeExpr.reading with
  | named id => exact hname id
  | nonNull inner ih => exact single_nonNull one atName inner ▸ ih
  | list element ih => exact ih.under one

theorem Distinct.items {usages : List Usage} (h : ∀ usage ∈ usages, Distinct usage)
    (element : TypeExpr TypeId) (index : Nat) : UsesDiffer (items element index usages) := by
  induction usages generalizing index with
  | nil => exact .nil
  | cons usage rest ih =>
    obtain ⟨hfirst, hrest⟩ := List.forall_mem_cons.1 h
    refine ((hfirst element).under _).append (ih hrest (index + 1)) fun use huse other hother => ?_
    obtain ⟨part, _, rfl⟩ := List.mem_map.1 huse
    obtain ⟨position, _, later, _, _, rfl⟩ := mem_items.1 hother
    intro heq
    have hindex := InputStep.item.inj (List.cons.inj heq).1
    omega

theorem Distinct.list {usages : List Usage} (h : ∀ usage ∈ usages, Distinct usage) :
    Distinct (list usages) := by
  intro type
  induction type using TypeExpr.reading with
  | named id => exact .nil
  | nonNull inner ih => exact list_nonNull usages inner ▸ ih
  | list element => exact items h element 0

/-- All uses of a field are below its name. -/
theorem exists_of_mem_field {members : List (Bytes × Usage)} {field : Argument}
    {use : DeprecatedUse} (h : use ∈ Usage.field (fun _ => []) members field) :
    ∃ rest, use.steps = .field field.name :: rest := by
  unfold Usage.field at h
  split at h
  · obtain ⟨part, _, rfl⟩ := List.mem_map.1 h
    exact ⟨part.steps, rfl⟩
  · cases h

theorem Distinct.fields {members : List (Bytes × Usage)}
    (h : ∀ member ∈ members, Distinct member.2) {declared : List Argument}
    (hnames : (declared.map (·.name)).Nodup) :
    UsesDiffer (declared.flatMap (Usage.field (fun _ => []) members)) := by
  induction declared with
  | nil => exact .nil
  | cons field declared ih =>
    obtain ⟨hfresh, hnames⟩ := List.nodup_cons.1 hnames
    have hfirst : UsesDiffer (Usage.field (fun _ => []) members field) := by
      unfold Usage.field
      split
      · rename_i usage hfound
        exact (h _ (mem_of_lookup hfound) field.type).ofField field
      · exact .nil
    rw [List.flatMap_cons]
    refine hfirst.append (ih hnames) fun use huse other hother => ?_
    obtain ⟨rest, hsteps⟩ := exists_of_mem_field huse
    obtain ⟨later, hlater, hother⟩ := List.mem_flatMap.1 hother
    obtain ⟨others, hothers⟩ := exists_of_mem_field hother
    rw [hsteps, hothers]
    intro heq
    have hname := InputStep.field.inj (List.cons.inj heq).1
    exact hfresh (List.mem_map.2 ⟨later, hlater, hname.symm⟩)

theorem Distinct.object (hnames : schema.DistinctFields) {one : InputStep}
    {members : List (Bytes × Usage)} (h : ∀ member ∈ members, Distinct member.2) :
    Distinct (object schema one (fun _ => []) members) := by
  refine Distinct.single fun id => ?_
  split
  · rename_i declared hbody
    exact fields h (hnames id declared hbody)
  · exact .nil

end Usage

namespace Value

variable {m : Type → Type} {schema : Schema m}

mutual

/-- The uses in a value are at different places. -/
theorem distinct_usage (hnames : schema.DistinctFields) {one : InputStep} :
    ∀ value : Value, Usage.Distinct (value.usage schema one fun _ => [])
  | .list items => by
    unfold usage
    exact .list (distinct_itemsUsage hnames items)
  | .object members => by
    unfold usage
    exact .object hnames (distinct_membersUsage hnames members)
  | .null | .bool _ | .int _ | .uint _ | .float _ | .string _ => by
    unfold usage
    exact fun _ => .nil

/-- So they are in the items of a list. -/
theorem distinct_itemsUsage (hnames : schema.DistinctFields)
    {one : InputStep} : ∀ items : List Value,
    ∀ usage ∈ itemsUsage schema one (fun _ => []) items, Usage.Distinct usage
  | [] => by simp [itemsUsage]
  | item :: rest =>
    List.forall_mem_cons.2 ⟨distinct_usage hnames item, distinct_itemsUsage hnames rest⟩

/-- So they are in the members of an object. -/
theorem distinct_membersUsage (hnames : schema.DistinctFields)
    {one : InputStep} : ∀ members : List (Bytes × Value),
    ∀ member ∈ membersUsage schema one (fun _ => []) members, Usage.Distinct member.2
  | [] => by simp [membersUsage]
  | (_, value) :: rest =>
    List.forall_mem_cons.2 ⟨distinct_usage hnames value, distinct_membersUsage hnames rest⟩

end

/-- Every deprecated field that a value contains is counted once. -/
theorem nodup_deprecatedUses (hnames : schema.DistinctFields) (value : Value)
    (type : TypeExpr TypeId) :
    ((value.deprecatedUses schema type).map DeprecatedUse.steps).Nodup :=
  (distinct_usage hnames value type).nodup

end Value

/-! ## §5 Places -/

/-- A value of the type contains the field itself, which is deprecated, at the end
of the steps. -/
inductive Value.ContainsUse {m : Type → Type} (schema : Schema m) :
    Value → TypeExpr TypeId → DeprecatedUse → Prop
  | nonNull {inner : TypeExpr TypeId} {value : Value} {use : DeprecatedUse} :
    ContainsUse schema value inner.unmarked use → ContainsUse schema value (.nonNull inner) use
  | item {element : TypeExpr TypeId} {items : List Value} {index : Nat} {item : Value}
      {use : DeprecatedUse} :
    items[index]? = some item → ContainsUse schema item element use →
    ContainsUse schema (.list items) (.list element) (use.under (.item index))
  | sole {element : TypeExpr TypeId} {value : Value} {use : DeprecatedUse} :
    value.isList = false → ContainsUse schema value element use →
    ContainsUse schema value (.list element) (use.under .sole)
  /-- A deprecated field that has a member. -/
  | here {id : TypeId} {declared : List Argument} {members : Members} {field : Argument}
      {value : Value} {deprecation : Deprecation} :
    schema.body? id = some (.inputObject declared) → field ∈ declared →
    members.lookup field.name = some value → field.deprecation = some deprecation →
    ContainsUse schema (.object members) (.named id)
      ⟨[.field field.name], field.type, deprecation, false⟩
  | member {id : TypeId} {declared : List Argument} {members : Members} {field : Argument}
      {value : Value} {use : DeprecatedUse} :
    schema.body? id = some (.inputObject declared) → field ∈ declared →
    members.lookup field.name = some value → ContainsUse schema value field.type use →
    ContainsUse schema (.object members) (.named id) (use.under (.field field.name))

namespace Value

variable {m : Type → Type} {schema : Schema m}

theorem itemsUsage_eq_map {one : InputStep} {fill : Argument → List DeprecatedUse}
    (items : List Value) :
    itemsUsage schema one fill items = items.map (usage schema one fill) := by
  induction items with
  | nil => rfl
  | cons item rest ih => rw [itemsUsage, List.map_cons, ih]

/-- The uses of a declared field with a member are its own and those in the member. -/
theorem mem_ofField {field : Argument} {inside : List DeprecatedUse} {use : DeprecatedUse} :
    use ∈ DeprecatedUse.ofField field inside ↔
      (∃ deprecation, field.deprecation = some deprecation ∧
        use = ⟨[.field field.name], field.type, deprecation, false⟩) ∨
      ∃ part ∈ inside, use = part.under (.field field.name) := by
  unfold DeprecatedUse.ofField DeprecatedUse.own
  cases field.deprecation with
  | none => simp [eq_comm]
  | some deprecation => simp [DeprecatedUse.under, eq_comm]

variable (schema) in
mutual

/-- Every use that is listed is in the value. -/
theorem containsUse_of_mem : ∀ (value : Value) (type : TypeExpr TypeId) (use : DeprecatedUse),
    use ∈ value.deprecatedUses schema type → value.ContainsUse schema type use
  | .list items, type, use, h => by
    unfold deprecatedUses usage at h
    induction type using TypeExpr.reading with
    | named id => cases h
    | nonNull inner ih =>
      rw [Usage.list_nonNull] at h
      exact .nonNull (ih h)
    | list element =>
      obtain ⟨position, usage, part, husage, hpart, rfl⟩ := Usage.mem_items.1 h
      rw [itemsUsage_eq_map, List.getElem?_map] at husage
      obtain ⟨item, hitem, rfl⟩ := Option.map_eq_some_iff.1 husage
      rw [Nat.zero_add]
      exact .item hitem
        (itemContainsUse_of_mem items item (List.mem_of_getElem? hitem) element part hpart)
  | .object members, type, use, h => by
    unfold deprecatedUses usage Usage.object at h
    induction type using TypeExpr.reading generalizing use with
    | nonNull inner ih =>
      rw [Usage.single_nonNull] at h
      exact .nonNull (ih use h)
    | list element ih =>
      obtain ⟨part, hpart, rfl⟩ := List.mem_map.1 h
      exact .sole rfl (ih part hpart)
    | named id =>
      unfold Usage.single at h
      split at h
      · rename_i declared hbody
        obtain ⟨field, hfield, h⟩ := List.mem_flatMap.1 h
        rw [Usage.field, lookup_membersUsage] at h
        cases hvalue : members.lookup field.name with
        | none => simp [hvalue] at h
        | some value =>
          rw [hvalue] at h
          rcases mem_ofField.1 h with ⟨deprecation, hdeprecation, rfl⟩ | ⟨part, hpart, rfl⟩
          · exact .here hbody hfield hvalue hdeprecation
          · exact .member hbody hfield hvalue
              (memberContainsUse_of_mem members _ (mem_of_lookup hvalue) field.type part hpart)
      · cases h
  | .null, _, _, h | .bool _, _, _, h | .int _, _, _, h | .uint _, _, _, h | .float _, _, _, h
  | .string _, _, _, h => by
    simp [deprecatedUses, usage] at h

/-- So is every use that is listed for an item of a list. -/
theorem itemContainsUse_of_mem : ∀ (items : List Value), ∀ item ∈ items,
    ∀ (type : TypeExpr TypeId) (use : DeprecatedUse),
    use ∈ item.deprecatedUses schema type → item.ContainsUse schema type use
  | [] => by simp
  | item :: rest => List.forall_mem_cons.2 ⟨containsUse_of_mem item, itemContainsUse_of_mem rest⟩

/-- So is every use that is listed for a member of an object. -/
theorem memberContainsUse_of_mem : ∀ (members : List (Bytes × Value)), ∀ member ∈ members,
    ∀ (type : TypeExpr TypeId) (use : DeprecatedUse),
    use ∈ member.2.deprecatedUses schema type → member.2.ContainsUse schema type use
  | [] => by simp
  | (_, value) :: rest =>
    List.forall_mem_cons.2 ⟨containsUse_of_mem value, memberContainsUse_of_mem rest⟩

end

/-- Listed are the deprecated fields that the value contains, and no others. -/
theorem mem_deprecatedUses {value : Value} {type : TypeExpr TypeId} {use : DeprecatedUse} :
    use ∈ value.deprecatedUses schema type ↔ value.ContainsUse schema type use := by
  refine ⟨containsUse_of_mem schema value type use, fun h => ?_⟩
  unfold deprecatedUses
  induction h with
  | nonNull _ ih => rwa [usage_nonNull]
  | @item element items index item part hitem _ ih =>
    refine Usage.mem_items.2 ⟨index, _, part, ?_, ih, by rw [Nat.zero_add]⟩
    rw [itemsUsage_eq_map, List.getElem?_map, hitem, Option.map_some]
  | sole hlist _ ih =>
    rw [usage_single hlist]
    exact List.mem_map_of_mem ih
  | here hbody hfield hvalue hdeprecation =>
    rw [usage_object hbody]
    refine List.mem_flatMap.2 ⟨_, hfield, ?_⟩
    rw [Usage.field, lookup_membersUsage, hvalue]
    exact mem_ofField.2 (.inl ⟨_, hdeprecation, rfl⟩)
  | member hbody hfield hvalue _ ih =>
    rw [usage_object hbody]
    refine List.mem_flatMap.2 ⟨_, hfield, ?_⟩
    rw [Usage.field, lookup_membersUsage, hvalue]
    exact mem_ofField.2 (.inr ⟨_, ih, rfl⟩)

end Value

end GraphQL
