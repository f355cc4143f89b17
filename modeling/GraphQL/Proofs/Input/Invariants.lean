/-
GraphQL.Proofs.Input.Invariants — facts that hold of whatever a coercion gives.

  §1 Parts        — items and members put together.
  §2 Invariants   — the steps that a fact about results must take.
  §3 Coercions    — a fact that takes all steps holds of lists and objects.
  §4 Input        — and of all input.

A result is made of the results of its parts, in one of a few ways. A fact that
each way keeps holds of every result. The induction over input is made here, so
that such a fact is proved by looking at one way at a time.
-/
import GraphQL.Input.Arguments
import GraphQL.Proofs.Input.Agreement
import GraphQL.Proofs.Input.SoundCoercion
import GraphQL.Proofs.Value.Members

namespace GraphQL

open MonadAttach (CanReturn)
open LawfulMonadAttach (canReturn_bind_imp' eq_of_canReturn_pure)

/-! ## §1 Parts -/

/-- The parts of a list or of an object: what they make, unless one of them fails, and
their issues. -/
abbrev Parts (α : Type) := Option α × List Issue

namespace Parts

/-- An item before others. -/
def item (coerced : Coerced) (parts : Parts (List Value)) : Parts (List Value) :=
  (match coerced.outcome, parts.1 with
    | .ok value, some values => some (value :: values)
    | _, _ => none, coerced.issues ++ parts.2)

/-- A member before others, unless it is left out. -/
def member (name : Bytes) (coerced : Coerced) (parts : Parts Members) : Parts Members :=
  (match coerced.outcome, parts.1 with
    | .ok value, some members => some ((name, value) :: members)
    | .absent, members => members
    | _, _ => none, coerced.issues ++ parts.2)

/-- What the parts make, with issues of its own. -/
def whole {α : Type} (make : α → Value) (own : List Issue) (parts : Parts α) : Coerced :=
  ⟨match parts.1 with
    | some a => .ok (make a)
    | none => .failed, own ++ parts.2⟩

end Parts

/-! ## §2 Invariants -/

/-- The field is declared by an input object type. -/
def Schema.Declares {m : Type → Type} (schema : Schema m) (field : Argument) : Prop :=
  ∃ id declared, schema.body? id = some (.inputObject declared) ∧ field ∈ declared

/-- Facts about results under a path, about the items of a list from an index on and
about the members for declared fields, which hold of what is made whenever they hold of
what it is made from. The names of the fields that are given are `named`, and the values
at the leaves are `leaf`. -/
structure Coercion.Invariant {m : Type → Type} [Monad m] [MonadAttach m] (schema : Schema m)
    (named : Bytes → Prop) (leaf : Value → Prop) (result : Bytes → Coerced → Prop)
    (items : Bytes → Nat → Parts (List Value) → Prop)
    (members : Bytes → List Argument → Parts Members → Prop) : Prop where
  unbound (path : Bytes) : result path .absent
  nullValue (path : Bytes) : result path (.ok .null)
  misfit (location : Option Location) (type : TypeExpr TypeId) (path : Bytes) :
    result path (Coercion.invalid schema location type path)
  scalarValue {id : TypeId} {coerce : Coercer m} {value given : Value} (path : Bytes) :
    leaf value → schema.body? id = some (.scalar coerce) →
    CanReturn (coerce value) (some given) → result path (.ok given)
  wrapped {path : Bytes} {coerced : Coerced} :
    result path coerced → result path (coerced.map fun value => .list [value])
  noItems (path : Bytes) (index : Nat) : items path index (some [], [])
  item {path : Bytes} {index : Nat} {coerced : Coerced} {parts : Parts (List Value)} :
    result (partPath path (decimal index)) coerced → coerced.outcome ≠ .absent →
    items path (index + 1) parts → items path index (parts.item coerced)
  ofItems {path : Bytes} {parts : Parts (List Value)} :
    items path 0 parts → result path (parts.whole .list [])
  missing {field : Argument} (path : Bytes) (location : Option Location) :
    schema.Declares field → result path (Coercion.missingField schema field path location)
  noticed {field : Argument} {path : Bytes} {coerced : Coerced} (location : Option Location) :
    schema.Declares field → result path coerced → result path { coerced with
      issues := Coercion.deprecationIssues schema field path location ++ coerced.issues }
  noMembers (path : Bytes) : members path [] (some [], [])
  member {field : Argument} {declared : List Argument} {path : Bytes} {coerced : Coerced}
      {parts : Parts Members} :
    schema.Declares field → result (partPath path field.name) coerced →
    members path declared parts → members path (field :: declared) (parts.member field.name coerced)
  ofMembers {id : TypeId} {declared : List Argument} {fields : Coercion.Fields m} {path : Bytes}
      {parts : Parts Members} :
    schema.body? id = some (.inputObject declared) → (∀ field ∈ fields, named field.1) →
    members path declared parts →
    result path (parts.whole .object (Coercion.unknownFields (schema.inputField? id) path fields))

/-! ## §3 Coercions -/

variable {m : Type → Type} [Monad m] [LawfulMonad m] [MonadAttach m] [LawfulMonadAttach m]

namespace Coercion

variable {schema : Schema m} {named : Bytes → Prop} {leaf : Value → Prop}
  {result : Bytes → Coerced → Prop} {items : Bytes → Nat → Parts (List Value) → Prop}
  {members : Bytes → List Argument → Parts Members → Prop} {location : Option Location}

/-- Whatever the coercion gives under a path, the fact holds of it. -/
def Upholds (result : Bytes → Coerced → Prop) (coercion : Coercion m) : Prop :=
  ∀ type path coerced, CanReturn (coercion type path) coerced → result path coerced

namespace Invariant

variable (inv : Invariant schema named leaf result items members)
include inv

theorem upholds_null : Upholds result (null schema location) := by
  intro type path coerced h
  cases eq_of_canReturn_pure h
  split
  · exact inv.misfit location type path
  · exact inv.nullValue path

theorem upholds_single {atName : TypeId → Bytes → Engine m Coerced}
    (hname : ∀ id path coerced, CanReturn (atName id path) coerced → result path coerced) :
    Upholds result (single atName) := by
  intro type path coerced h
  induction type using TypeExpr.reading generalizing coerced with
  | named id => exact hname id path coerced h
  | nonNull inner ih =>
    rw [single_nonNull] at h
    exact ih _ h
  | list element ih =>
    obtain ⟨item, hitem, h⟩ := canReturn_bind_imp' h
    cases eq_of_canReturn_pure h
    exact inv.wrapped (ih _ hitem)

theorem upholds_scalar {value : Value} (hleaf : leaf value) :
    Upholds result (scalar schema location value) := by
  refine inv.upholds_single fun id path coerced h => ?_
  obtain ⟨body, hbody, h⟩ := canReturn_atBody h
  cases body with
  | object _ => exact absurd h not_canReturn_throw
  | inputObject declared =>
    cases eq_of_canReturn_pure h
    exact inv.misfit location (.named id) path
  | scalar coerce =>
    obtain ⟨given, hgiven, h⟩ := canReturn_bind_imp' h
    cases given with
    | none =>
      cases eq_of_canReturn_pure h
      exact inv.misfit location (.named id) path
    | some given =>
      cases eq_of_canReturn_pure h
      exact inv.scalarValue path hleaf hbody hgiven

/-- What reads as null where it has no value has a value or fails. -/
theorem orNull_upholds {item : Coercion m} (hitem : Upholds result item) {type : TypeExpr TypeId}
    {path : Bytes} {coerced : Coerced}
    (h : CanReturn (item.orNull schema location type path) coerced) :
    result path coerced ∧ coerced.outcome ≠ .absent := by
  obtain ⟨⟨outcome, issues⟩, hgiven, h⟩ := canReturn_bind_imp' h
  cases outcome with
  | absent =>
    refine ⟨inv.upholds_null type path coerced h, ?_⟩
    cases eq_of_canReturn_pure h
    split <;> simp [Coercion.invalid, Coerced.fail, Coerced.ok]
  | ok value =>
    cases eq_of_canReturn_pure h
    exact ⟨hitem _ _ _ hgiven, by simp⟩
  | failed =>
    cases eq_of_canReturn_pure h
    exact ⟨hitem _ _ _ hgiven, by simp⟩

theorem upholds_listItems {given : List (Option Location × Coercion m)}
    (hgiven : ∀ item ∈ given, Upholds result item.2) {element : TypeExpr TypeId} {path : Bytes}
    {index : Nat} {parts : Parts (List Value)}
    (h : CanReturn (listItems schema element path index given) parts) :
    items path index parts := by
  induction given generalizing index parts with
  | nil =>
    cases eq_of_canReturn_pure h
    exact inv.noItems path index
  | cons item rest ih =>
    obtain ⟨hitem, hrest⟩ := List.forall_mem_cons.1 hgiven
    rw [listItems_cons] at h
    obtain ⟨coerced, hcoerced, h⟩ := canReturn_bind_imp' h
    obtain ⟨later, hlater, h⟩ := canReturn_bind_imp' h
    cases eq_of_canReturn_pure h
    obtain ⟨hresult, hsettled⟩ := inv.orNull_upholds hitem hcoerced
    exact inv.item hresult hsettled (ih hrest hlater)

theorem upholds_list {given : List (Option Location × Coercion m)}
    (hgiven : ∀ item ∈ given, Upholds result item.2) :
    Upholds result (list schema location given) := by
  intro type path coerced h
  induction type using TypeExpr.reading generalizing coerced with
  | named id =>
    obtain ⟨body, _, h⟩ := canReturn_atBody h
    cases eq_of_canReturn_pure h
    exact inv.misfit location (.named id) path
  | nonNull inner ih =>
    rw [list_nonNull] at h
    exact ih _ h
  | list element ih =>
    obtain ⟨⟨values, issues⟩, hparts, h⟩ := canReturn_bind_imp' h
    cases eq_of_canReturn_pure h
    have hwhole := inv.ofItems (inv.upholds_listItems hgiven hparts)
    cases values <;> exact hwhole

theorem upholds_declaredField {fields : Fields m}
    (hfields : ∀ given ∈ fields, Upholds result given.2.2) {field : Argument}
    (hdeclared : schema.Declares field) {path : Bytes} {coerced : Coerced}
    (h : CanReturn (declaredField schema location fields path field) coerced) :
    result (partPath path field.name) coerced := by
  unfold declaredField at h
  cases hlookup : fields.lookup field.name with
  | none =>
    rw [hlookup] at h
    cases eq_of_canReturn_pure h
    exact inv.missing _ _ hdeclared
  | some entry =>
    obtain ⟨fieldLocation, coercion⟩ := entry
    rw [hlookup] at h
    obtain ⟨⟨outcome, issues⟩, hgiven, h⟩ := canReturn_bind_imp' h
    have hresult := hfields _ (mem_of_lookup hlookup) _ _ _ hgiven
    cases eq_of_canReturn_pure h
    refine inv.noticed fieldLocation hdeclared ?_
    cases outcome with
    | absent => exact inv.missing _ _ hdeclared
    | ok value => exact hresult
    | failed => exact hresult

theorem upholds_declaredFields {fields : Fields m}
    (hfields : ∀ given ∈ fields, Upholds result given.2.2) {declared : List Argument}
    (hdeclared : ∀ field ∈ declared, schema.Declares field) {path : Bytes} {parts : Parts Members}
    (h : CanReturn (declaredFields schema location fields path declared) parts) :
    members path declared parts := by
  induction declared generalizing parts with
  | nil =>
    cases eq_of_canReturn_pure h
    exact inv.noMembers path
  | cons field rest ih =>
    obtain ⟨hfirst, hrest⟩ := List.forall_mem_cons.1 hdeclared
    obtain ⟨coerced, hfield, h⟩ := canReturn_bind_imp' h
    obtain ⟨later, hlater, h⟩ := canReturn_bind_imp' h
    cases eq_of_canReturn_pure h
    exact inv.member hfirst (inv.upholds_declaredField hfields hfirst hfield) (ih hrest hlater)

theorem upholds_object {fields : Fields m} (hnamed : ∀ given ∈ fields, named given.1)
    (hfields : ∀ given ∈ fields, Upholds result given.2.2) :
    Upholds result (object schema location fields) := by
  refine inv.upholds_single fun id path coerced h => ?_
  obtain ⟨body, hbody, h⟩ := canReturn_atBody h
  cases body with
  | scalar coerce =>
    cases eq_of_canReturn_pure h
    exact inv.misfit location (.named id) path
  | object _ =>
    cases eq_of_canReturn_pure h
    exact inv.misfit location (.named id) path
  | inputObject declared =>
    obtain ⟨⟨values, issues⟩, hparts, h⟩ := canReturn_bind_imp' h
    cases eq_of_canReturn_pure h
    have hdeclared : ∀ field ∈ declared, schema.Declares field :=
      fun field hfield => ⟨id, declared, hbody, hfield⟩
    have hwhole : result path
        (Parts.whole .object (unknownFields (schema.inputField? id) path fields)
          (values, issues)) :=
      inv.ofMembers hbody hnamed (inv.upholds_declaredFields hfields hdeclared hparts)
    cases values <;> exact hwhole

end Invariant

end Coercion

/-! ## §4 Input -/

namespace Input

mutual

/-- The names of the fields of all objects in the input, at every depth. -/
def names : Input → List Bytes
  | .list _ items => itemNames items
  | .object _ fields => fieldNames fields
  | _ => []

/-- The names of fields in items. -/
def itemNames : List Input → List Bytes
  | [] => []
  | item :: rest => item.names ++ itemNames rest

/-- The names of fields, and of those in what is given for them. -/
def fieldNames : List (Bytes × Option Location × Input) → List Bytes
  | [] => []
  | (name, _, input) :: rest => name :: input.names ++ fieldNames rest

end

mutual

/-- The values at the leaves of the input. -/
def leaves : Input → List Value
  | .scalar _ value => [value]
  | .list _ items => itemLeaves items
  | .object _ fields => fieldLeaves fields
  | _ => []

/-- The values at the leaves of items. -/
def itemLeaves : List Input → List Value
  | [] => []
  | item :: rest => item.leaves ++ itemLeaves rest

/-- The values at the leaves of what is given for fields. -/
def fieldLeaves : List (Bytes × Option Location × Input) → List Value
  | [] => []
  | (_, _, input) :: rest => input.leaves ++ fieldLeaves rest

end

variable {schema : Schema m} {named : Bytes → Prop} {leaf : Value → Prop}
  {result : Bytes → Coerced → Prop} {items : Bytes → Nat → Parts (List Value) → Prop}
  {members : Bytes → List Argument → Parts Members → Prop}

omit [LawfulMonad m] [LawfulMonadAttach m] in
mutual

/-- An invariant holds of whatever the coercion of input gives. -/
theorem coerce_upholds [LawfulMonad m] [LawfulMonadAttach m]
    (inv : Coercion.Invariant schema named leaf result items members) :
    ∀ input : Input, (∀ name ∈ input.names, named name) →
    (∀ value ∈ input.leaves, leaf value) → Coercion.Upholds result (input.coerce schema)
  | .unbound _, _, _ => by
    intro type path coerced h
    cases eq_of_canReturn_pure h
    exact inv.unbound path
  | .null _, _, _ => by
    unfold coerce
    exact inv.upholds_null
  | .scalar _ value, _, hleaves => by
    unfold coerce
    exact inv.upholds_scalar (hleaves value (List.mem_singleton_self value))
  | .list _ given, hnamed, hleaves => by
    unfold coerce
    exact inv.upholds_list (coerceItems_uphold inv given hnamed hleaves)
  | .object _ given, hnamed, hleaves => by
    obtain ⟨hnames, hfields⟩ := coerceFields_uphold inv given hnamed hleaves
    unfold coerce
    exact inv.upholds_object hnames hfields

theorem coerceItems_uphold [LawfulMonad m] [LawfulMonadAttach m]
    (inv : Coercion.Invariant schema named leaf result items members) :
    ∀ given : List Input, (∀ name ∈ itemNames given, named name) →
    (∀ value ∈ itemLeaves given, leaf value) →
    ∀ item ∈ coerceItems schema given, Coercion.Upholds result item.2
  | [], _, _ => by simp [coerceItems]
  | input :: rest, hnamed, hleaves => by
    obtain ⟨hnames, hlaterNames⟩ := List.forall_mem_append.1 hnamed
    obtain ⟨hvalues, hlaterValues⟩ := List.forall_mem_append.1 hleaves
    exact List.forall_mem_cons.2
      ⟨coerce_upholds inv input hnames hvalues,
        coerceItems_uphold inv rest hlaterNames hlaterValues⟩

theorem coerceFields_uphold [LawfulMonad m] [LawfulMonadAttach m]
    (inv : Coercion.Invariant schema named leaf result items members) :
    ∀ given : List (Bytes × Option Location × Input),
    (∀ name ∈ fieldNames given, named name) → (∀ value ∈ fieldLeaves given, leaf value) →
    (∀ field ∈ coerceFields schema given, named field.1) ∧
      ∀ field ∈ coerceFields schema given, Coercion.Upholds result field.2.2
  | [], _, _ => by simp [coerceFields]
  | (name, _, input) :: rest, hnamed, hleaves => by
    obtain ⟨hname, hbelow⟩ := List.forall_mem_cons.1 hnamed
    obtain ⟨hnames, hlaterNames⟩ := List.forall_mem_append.1 hbelow
    obtain ⟨hvalues, hlaterValues⟩ := List.forall_mem_append.1 hleaves
    obtain ⟨hgiven, hfields⟩ := coerceFields_uphold inv rest hlaterNames hlaterValues
    exact ⟨List.forall_mem_cons.2 ⟨hname, hgiven⟩,
      List.forall_mem_cons.2 ⟨coerce_upholds inv input hnames hvalues, hfields⟩⟩

end

end Input

end GraphQL
