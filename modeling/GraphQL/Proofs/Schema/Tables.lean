/-
GraphQL.Proofs.Schema.Tables — tables of names against searches.

  §1 Tables   — the table of a list has the first position of each name.
  §2 Types    — the fields that a type finds, and fields that are added to it.
  §3 Schemas  — the types that a schema finds, and types that are added to it.

Tables are filled one name at a time, and a name keeps its first position. So what is
found by a table is what a search from the first entry on would find, in every schema
and in every type, whichever steps have led to it.
-/
import GraphQL.Schema.Basic
import Mathlib.Data.List.Induction

namespace GraphQL

/-! ## §1 Tables -/

namespace NameIndex

/-- A name that is there keeps its position; another one gets the position given. -/
theorem find?_emplace (index : NameIndex) (name : Bytes) (position : Nat) (wanted : Bytes) :
    (index.emplace name position).find? wanted =
      (index.find? wanted).or (if name == wanted then some position else none) := by
  unfold emplace
  by_cases hname : name = wanted
  · subst hname
    cases hfound : index.find? name with
    | some other => simp [contains, hfound]
    | none =>
      have hnew : ¬ index.contains name = true := by simp [contains, hfound]
      rw [if_neg hnew, find?, List.lookup_cons, beq_self_eq_true, if_pos rfl, Option.none_or]
  · have hne : (name == wanted) = false := beq_eq_false_iff_ne.2 hname
    have hne' : (wanted == name) = false := beq_eq_false_iff_ne.2 (Ne.symm hname)
    rw [hne, if_neg Bool.false_ne_true, Option.or_none]
    split
    · rfl
    · rw [find?, List.lookup_cons, hne', find?]

/-- The table of a list has the first position of each name. -/
theorem find?_ofNames (names : List Bytes) (wanted : Bytes) :
    (ofNames names).find? wanted = names.findIdx? (· == wanted) := by
  induction names using List.reverseRecOn with
  | nil => rfl
  | append_singleton names name ih =>
    rw [ofNames_concat, find?_emplace, ih, List.findIdx?_append, List.findIdx?_singleton]
    cases name == wanted <;> simp

/-- The names in the table of a list are those of the list. -/
theorem contains_ofNames (names : List Bytes) (name : Bytes) :
    (ofNames names).contains name = true ↔ name ∈ names := by
  rw [contains, find?_ofNames, List.findIdx?_isSome, List.any_beq']
  exact List.contains_iff_mem

end NameIndex

/-! ## §2 Types -/

theorem modify_length_append {α : Type} (before after : List α) (a : α) (change : α → α) :
    (before ++ a :: after).modify before.length change = before ++ change a :: after := by
  rw [List.modify_eq_take_cons_drop (by simp)]
  simp

variable {m : Type → Type}

namespace NamedType

/-- The table of a type is determined by its fields. -/
theorem ext {type other : NamedType m} (hname : type.name = other.name)
    (hdescription : type.description = other.description) (hbody : type.body = other.body) :
    type = other := by
  obtain ⟨name, description, body, index, hindex⟩ := type
  obtain ⟨_, _, _, _, hother⟩ := other
  cases hname
  cases hdescription
  cases hbody
  cases hindex
  cases hother
  rfl

/-- A field is found as by a search among the fields of an object type. -/
theorem field?_eq (type : NamedType m) (name : Bytes) : type.field? name =
    match type.body with
    | .object fields => fields.find? (·.name == name)
    | _ => none := by
  unfold field?
  rw [type.indexed, NameIndex.find?_ofNames]
  cases type.body with
  | scalar _ => rfl
  | inputObject _ => rfl
  | object fields =>
    dsimp only [TypeBody.fieldNames]
    rw [List.findIdx?_map, List.find?_eq_bind_findIdx?_getElem?]
    rfl

/-- An input field is found as by a search among the fields of an input object type. -/
theorem inputField?_eq (type : NamedType m) (name : Bytes) : type.inputField? name =
    match type.body with
    | .inputObject declared => declared.find? (·.name == name)
    | _ => none := by
  unfold inputField?
  rw [type.indexed, NameIndex.find?_ofNames]
  cases type.body with
  | scalar _ => rfl
  | object _ => rfl
  | inputObject declared =>
    dsimp only [TypeBody.fieldNames]
    rw [List.findIdx?_map, List.find?_eq_bind_findIdx?_getElem?]
    rfl

theorem isObject_eq (type : NamedType m) : type.isObject = decide (type.body.sort = .object) := by
  unfold isObject
  cases type.body <;> rfl

theorem isInputObject_eq (type : NamedType m) :
    type.isInputObject = decide (type.body.sort = .inputObject) := by
  unfold isInputObject
  cases type.body <;> rfl

theorem addField_of (name description : Bytes) (fields : List (FieldType m))
    (field : FieldType m) : (of name description (.object fields)).addField field =
      of name description (.object (fields ++ [field])) :=
  ext rfl rfl rfl

theorem addInputField_of (name description : Bytes) (declared : List Argument)
    (field : Argument) :
    (of name description (.inputObject declared) : NamedType m).addInputField field =
      of name description (.inputObject (declared ++ [field])) :=
  ext rfl rfl rfl

/-- The field that stands at a position has another default, and is the same otherwise. -/
theorem body_withDefault {type : NamedType m} {before after : List Argument} {field : Argument}
    (h : type.body = .inputObject (before ++ field :: after)) (default : Option Value) :
    (type.withDefault before.length default).body =
      .inputObject (before ++ { field with default } :: after) := by
  obtain ⟨name, description, body, index, indexed⟩ := type
  cases h
  exact congrArg TypeBody.inputObject (modify_length_append before after field _)

theorem body_withArguments {type : NamedType m} {fields : List (FieldType m)}
    (h : type.body = .object fields) (arguments : List (List Argument)) :
    (type.withArguments arguments).body = .object (FieldType.withArguments fields arguments) := by
  obtain ⟨name, description, body, index, indexed⟩ := type
  cases h
  rfl

theorem description_withDefault (type : NamedType m) (position : Nat) (default : Option Value) :
    (type.withDefault position default).description = type.description := by
  obtain ⟨name, description, body, index, indexed⟩ := type
  cases body <;> rfl

theorem description_withArguments (type : NamedType m) (arguments : List (List Argument)) :
    (type.withArguments arguments).description = type.description := by
  obtain ⟨name, description, body, index, indexed⟩ := type
  cases body <;> rfl

end NamedType

/-! ## §3 Schemas -/

namespace Schema

/-- The schema of these types, with no type yet to start at. -/
def ofTypes (types : List (NamedType m)) : Schema m where
  types
  query := 0
  mutation := none

/-- The table of a schema is determined by its types. -/
theorem ext {schema other : Schema m} (htypes : schema.types = other.types)
    (hquery : schema.query = other.query) (hmutation : schema.mutation = other.mutation) :
    schema = other := by
  obtain ⟨types, query, mutation, byName, hnamed⟩ := schema
  obtain ⟨_, _, _, _, hother⟩ := other
  cases htypes
  cases hquery
  cases hmutation
  cases hnamed
  cases hother
  rfl

/-- A type is found as by a search among the types. -/
theorem typeId?_eq (schema : Schema m) (name : Bytes) :
    schema.typeId? name = schema.types.findIdx? (·.name == name) := by
  rw [typeId?, schema.named, NameIndex.find?_ofNames, List.findIdx?_map]
  rfl

/-- An input field is found as by a search among those of its type. -/
theorem inputField?_of_body? {schema : Schema m} {id : TypeId} {declared : List Argument}
    (h : schema.body? id = some (.inputObject declared)) (name : Bytes) :
    schema.inputField? id name = declared.find? (·.name == name) := by
  obtain ⟨type, htype, hbody⟩ := Option.map_eq_some_iff.1 h
  rw [inputField?, htype, Option.bind_some, NamedType.inputField?_eq, hbody]

/-- Names that are not found at an input object type are those that it does not declare. -/
theorem isNone_inputField? {schema : Schema m} {id : TypeId} {declared : List Argument}
    (h : schema.body? id = some (.inputObject declared)) (name : Bytes) :
    (schema.inputField? id name).isNone = !declared.any (·.name == name) := by
  rw [inputField?_of_body? h, ← Option.not_isSome, List.isSome_find?]

theorem isObjectType_eq (schema : Schema m) (id : TypeId) :
    schema.isObjectType id = (schema.body? id).any fun body => body.sort = .object := by
  unfold isObjectType body?
  cases schema.type? id with
  | none => rfl
  | some type => exact type.isObject_eq

theorem isInputObjectType_eq (schema : Schema m) (id : TypeId) :
    schema.isInputObjectType id = (schema.body? id).any fun body => body.sort = .inputObject := by
  unfold isInputObjectType body?
  cases schema.type? id with
  | none => rfl
  | some type => exact type.isInputObject_eq

/-- The parts of a type are known by the names of its fields. -/
theorem hasPart_iff {schema : Schema m} {id : TypeId} {type : NamedType m}
    (h : schema.type? id = some type) (name : Bytes) :
    schema.hasPart id name = true ↔ name ∈ type.body.fieldNames := by
  rw [hasPart, h, Option.any_some, type.indexed, NameIndex.contains_ofNames]

/-- The names of the types are those in the table. -/
theorem contains_byName (schema : Schema m) (name : Bytes) :
    schema.byName.contains name = true ↔ name ∈ schema.types.map (·.name) := by
  rw [schema.named, NameIndex.contains_ofNames]

theorem add_ofTypes (types : List (NamedType m)) (type : NamedType m) :
    (ofTypes types).add type = ofTypes (types ++ [type]) :=
  ext rfl rfl rfl

theorem type?_alter_self {schema : Schema m} {id : TypeId} {type : NamedType m}
    {change : NamedType m → NamedType m} (h : ∀ type, (change type).name = type.name)
    (htype : schema.type? id = some type) :
    (schema.alter id change h).type? id = some (change type) := by
  simp only [type?] at htype
  simp [alter, type?, htype]

theorem type?_alter_of_ne {schema : Schema m} {id other : TypeId}
    {change : NamedType m → NamedType m} (h : ∀ type, (change type).name = type.name)
    (hother : other ≠ id) : (schema.alter id change h).type? other = schema.type? other := by
  simp [alter, type?, Ne.symm hother]

/-- A change of one of the types, which has others before it. -/
theorem alter_ofTypes (before after : List (NamedType m)) (type : NamedType m)
    {change : NamedType m → NamedType m} (h : ∀ type, (change type).name = type.name) :
    (ofTypes (before ++ type :: after)).alter before.length change h =
      ofTypes (before ++ change type :: after) :=
  ext (modify_length_append before after type change) rfl rfl

end Schema

end GraphQL
