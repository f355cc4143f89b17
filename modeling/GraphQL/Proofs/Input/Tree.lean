/-
GraphQL.Proofs.Input.Tree — one tree behind literals and runtime values.

  §1 Trees      — a literal with its variables replaced, or a runtime value.
  §2 Coercion   — coercion of a tree.
  §3 Wrappers   — coercions in step under lists and non-null types.
  §4 Values     — runtime values are coerced as their trees are.
  §5 Literals   — and so are literals.

Runtime values and literals are coerced by functions of their own. Both give
what the coercion of one tree gives, so whatever is proved of trees holds of
both. A tree has no variables, only places where a variable had no value.
-/
import GraphQL.Proofs.Document.Wrappers
import GraphQL.Proofs.Input.InStep
import GraphQL.Proofs.Value.Members

namespace GraphQL

/-! ## §1 Trees -/

/-- Input, each part with the place in the document that gave it. -/
inductive Input where
  /-- A reference to a variable that has no value. -/
  | unbound (location : Option Location)
  | null (location : Option Location)
  /-- A value that is neither null nor a list nor an object. -/
  | scalar (location : Option Location) (value : Value)
  | list (location : Option Location) (items : List Input)
  | object (location : Option Location) (fields : List (Bytes × Option Location × Input))

namespace Input

/-- Where the input was given. -/
def location : Input → Option Location
  | .unbound location | .null location | .scalar location _ | .list location _
  | .object location _ => location

mutual

/-- A runtime value as input, given at `location`. -/
def ofValue (location : Option Location) : Value → Input
  | .null => .null location
  | .list items => .list location (ofValues location items)
  | .object members => .object location (ofMembers location members)
  | value => .scalar location value

/-- The items of a list as input. -/
def ofValues (location : Option Location) : List Value → List Input
  | [] => []
  | value :: rest => ofValue location value :: ofValues location rest

/-- The members of an object as input. -/
def ofMembers (location : Option Location) :
    List (Bytes × Value) → List (Bytes × Option Location × Input)
  | [] => []
  | (key, value) :: rest => (key, location, ofValue location value) :: ofMembers location rest

end

mutual

/-- A literal as input, its variables taking the values given. -/
def ofLiteral (bindings : Members) : Literal → Input
  | .null location => .null (some location)
  | .list location items => .list (some location) (ofLiterals bindings items)
  | .object location fields => .object (some location) (ofEntries bindings fields)
  | .reference location name =>
    match bindings.lookup name with
    | some value => ofValue (some location) value
    | none => .unbound (some location)
  | literal => .scalar (some literal.location) literal.scalarValue

/-- The items of a list literal as input. -/
def ofLiterals (bindings : Members) : List Literal → List Input
  | [] => []
  | literal :: rest => ofLiteral bindings literal :: ofLiterals bindings rest

/-- The fields of an object literal as input, each with its own place. -/
def ofEntries (bindings : Members) :
    List (Entry Literal) → List (Bytes × Option Location × Input)
  | [] => []
  | ⟨name, value, location⟩ :: rest =>
    (name, some location, ofLiteral bindings value) :: ofEntries bindings rest

end

@[simp]
theorem location_ofValue (location : Option Location) (value : Value) :
    (ofValue location value).location = location := by
  cases value <;> simp [ofValue, Input.location]

@[simp]
theorem location_ofLiteral (bindings : Members) (literal : Literal) :
    (ofLiteral bindings literal).location = some literal.location := by
  cases literal with
  | reference location name =>
    unfold ofLiteral
    cases bindings.lookup name with
    | none => rfl
    | some value => exact location_ofValue _ value
  | _ => simp [ofLiteral, Input.location, Literal.location]

/-! ## §2 Coercion -/

variable {m : Type → Type} [Monad m]

mutual

/-- The coercion of input in a schema. -/
def coerce (schema : Schema m) : Input → Coercion m
  | .unbound _ => fun _ _ => return .absent
  | .null location => Coercion.null schema location
  | .scalar location value => Coercion.scalar schema location value
  | .list location items => Coercion.list schema location (coerceItems schema items)
  | .object location fields => Coercion.object schema location (coerceFields schema fields)

/-- The coercions of the items of a list, each with its place. -/
def coerceItems (schema : Schema m) : List Input → List (Option Location × Coercion m)
  | [] => []
  | item :: rest => (item.location, coerce schema item) :: coerceItems schema rest

/-- The coercions of the fields of an object, each with its name and place. -/
def coerceFields (schema : Schema m) :
    List (Bytes × Option Location × Input) → Coercion.Fields m
  | [] => []
  | (name, location, input) :: rest =>
    (name, location, coerce schema input) :: coerceFields schema rest

end

end Input

/-! ## §3 Wrappers -/

variable {m : Type → Type} [Monad m] [LawfulMonad m]

/-- Two results that are the same, with a value or a failure. -/
def Coerced.SettlesAs (given other : Coerced) : Prop := given = other ∧ given.outcome ≠ .absent

namespace Coercion

variable {schema : Schema m} {location : Option Location} {R : Coerced → Coerced → Prop}
  {path : Bytes}

/-- Coercions in step at every named type are in step under all wrappers. -/
theorem single_inStep {atName atName' : TypeId → Bytes → Engine m Coerced}
    (hname : ∀ id, InStep R (atName id path) (atName' id path))
    (hmap : ∀ a b f, R a b → R (a.map f) (b.map f)) (type : TypeExpr TypeId) :
    InStep R (single atName type path) (single atName' type path) := by
  induction type using TypeExpr.reading with
  | named id => exact hname id
  | nonNull inner ih =>
    rw [single_nonNull, single_nonNull]
    exact ih
  | list element ih => exact ih.bind fun a b hab => .pure (hmap a b _ hab)

theorem atBody_inStep {id : TypeId} {fit fit' : TypeBody m → Engine m Coerced}
    (h : ∀ body, InStep R (fit body) (fit' body)) :
    InStep R (atBody schema id fit) (atBody schema id fit') := by
  unfold atBody
  cases schema.body? id with
  | none => exact .throw _
  | some body => exact h body

end Coercion

/-! ## §4 Values -/

namespace Coerced.SettlesAs

theorem ok {value : Value} {issues : List Issue} :
    SettlesAs ⟨.ok value, issues⟩ ⟨.ok value, issues⟩ := ⟨rfl, by simp⟩

theorem failed {issues : List Issue} : SettlesAs ⟨.failed, issues⟩ ⟨.failed, issues⟩ :=
  ⟨rfl, by simp⟩

theorem map {a b : Coerced} {f : Value → Value} (h : SettlesAs a b) :
    SettlesAs (a.map f) (b.map f) := by
  obtain ⟨rfl, habsent⟩ := h
  refine ⟨rfl, ?_⟩
  unfold Coerced.map
  cases houtcome : a.outcome with
  | absent => exact absurd houtcome habsent
  | ok value => simp
  | failed => simp [houtcome]

end Coerced.SettlesAs

namespace Coercion

variable {schema : Schema m} {location : Option Location}

/-- The coercion of a runtime value beside the coercion of a tree. -/
def SettlesAs (coercion other : Coercion m) : Prop :=
  ∀ type path, InStep Coerced.SettlesAs (coercion type path) (other type path)

theorem null_settles : SettlesAs (null schema location) (null schema location) := by
  intro type path
  unfold null
  split
  · exact .pure .failed
  · exact .pure .ok

theorem scalar_settles {value : Value} :
    SettlesAs (scalar schema location value) (scalar schema location value) := by
  intro type path
  refine single_inStep (fun id => atBody_inStep fun body => ?_) (fun a b f => .map) type
  cases body with
  | inputObject _ => exact .pure .failed
  | object _ => exact .throw _
  | scalar coerce =>
    refine InStep.bind (.refl (fun _ => rfl) (coerce value)) fun a b hab => ?_
    subst hab
    cases a with
    | none => exact .pure .failed
    | some result => exact .pure .ok

/-- Items that settle are never without value, so none of them is read as null. -/
theorem valueItems_eq {items : List (Coercion m)} {others : List (Option Location × Coercion m)}
    (h : List.Forall₂ (fun item other => SettlesAs item other.2) items others)
    (element : TypeExpr TypeId) (path : Bytes) (index : Nat) :
    valueItems element path index items = listItems schema element path index others := by
  induction h generalizing index with
  | nil => rfl
  | cons hitem _ ih =>
    unfold valueItems listItems
    refine (hitem element _).bind_eq fun a b hab => ?_
    obtain ⟨rfl, habsent⟩ := hab
    obtain ⟨outcome, issues⟩ := a
    cases outcome with
    | absent => exact absurd rfl habsent
    | _ => simp only [pure_bind, ih]

theorem valueList_settles {items : List (Coercion m)}
    {others : List (Option Location × Coercion m)}
    (h : List.Forall₂ (fun item other => SettlesAs item other.2) items others) :
    SettlesAs (valueList schema location items) (list schema location others) := by
  intro type path
  induction type using TypeExpr.reading with
  | named id => exact atBody_inStep fun _ => .pure .failed
  | nonNull inner ih =>
    rw [valueList_nonNull, list_nonNull]
    exact ih
  | list element ih =>
    simp only [valueList, list, TypeExpr.nullable]
    rw [valueItems_eq h]
    refine InStep.bind (.refl (fun _ => rfl) _) fun a b hab => ?_
    subst hab
    obtain ⟨parts, issues⟩ := a
    cases parts with
    | none => exact .pure .failed
    | some values => exact .pure .ok

/-- Members of a runtime object beside the fields of a tree: the same names, one
location, and coercions that settle alike. -/
abbrev MembersSettleAs (location : Option Location) (members : Supplied m) (fields : Fields m) :
    Prop :=
  List.Forall₂ (fun member field =>
    member.1 = field.1 ∧ field.2.1 = location ∧ SettlesAs member.2 field.2.2) members fields

omit [LawfulMonad m] in
theorem unknownMembers_eq {members : Supplied m} {fields : Fields m}
    (h : MembersSettleAs location members fields) (field? : Bytes → Option Argument)
    (path : Bytes) :
    unknownMembers field? location path members = unknownFields field? path fields := by
  unfold unknownMembers unknownFields
  induction h with
  | nil => rfl
  | cons hfield _ ih =>
    obtain ⟨hname, hlocation, _⟩ := hfield
    rw [List.filter_cons, List.filter_cons, hname]
    split
    · rw [List.map_cons, List.map_cons, ih, hname, hlocation]
    · exact ih

theorem valueField_eq {members : Supplied m} {fields : Fields m}
    (h : MembersSettleAs location members fields) (path : Bytes) (field : Argument) :
    valueField schema location members path field =
      declaredField schema location fields path field := by
  have hfound : Option.Rel (fun member given => given.1 = location ∧ SettlesAs member given.2)
      (members.lookup field.name) (fields.lookup field.name) := lookup_rel h field.name
  unfold valueField declaredField
  generalize members.lookup field.name = member at hfound ⊢
  generalize fields.lookup field.name = given at hfound ⊢
  cases hfound with
  | none => rfl
  | some hmember =>
    obtain ⟨hlocation, hsettles⟩ := hmember
    simp only [hlocation]
    refine (hsettles field.type _).bind_eq fun a b hab => ?_
    obtain ⟨rfl, habsent⟩ := hab
    obtain ⟨outcome, issues⟩ := a
    cases outcome with
    | absent => exact absurd rfl habsent
    | _ => rfl

theorem valueFields_eq {members : Supplied m} {fields : Fields m}
    (h : MembersSettleAs location members fields) (path : Bytes) (declared : List Argument) :
    valueFields schema location members path declared =
      declaredFields schema location fields path declared := by
  induction declared with
  | nil => rfl
  | cons field rest ih => rw [valueFields, declaredFields, ih, valueField_eq h]

theorem valueObjectAt_settles {members : Supplied m} {fields : Fields m}
    (h : MembersSettleAs location members fields) (id : TypeId) (declared : List Argument)
    (path : Bytes) :
    InStep Coerced.SettlesAs (valueObjectAt schema location members id declared path)
      (objectAt schema location fields id declared path) := by
  unfold valueObjectAt objectAt
  rw [valueFields_eq h, unknownMembers_eq h]
  refine InStep.bind (.refl (fun _ => rfl) _) fun a b hab => ?_
  subst hab
  obtain ⟨parts, issues⟩ := a
  cases parts with
  | none => exact .pure .failed
  | some members => exact .pure .ok

theorem valueObject_settles {members : Supplied m} {fields : Fields m}
    (h : MembersSettleAs location members fields) :
    SettlesAs (valueObject schema location members) (object schema location fields) := by
  intro type path
  refine single_inStep (fun id => atBody_inStep fun body => ?_) (fun a b f => .map) type
  cases body with
  | scalar _ => exact .pure .failed
  | object _ => exact .pure .failed
  | inputObject declared => exact valueObjectAt_settles h id declared path

end Coercion

namespace Value

variable (schema : Schema m) (location : Option Location)

omit [LawfulMonad m] in
mutual

/-- A runtime value settles as its tree does. -/
theorem coerce_settles [LawfulMonad m] : ∀ value : Value,
    Coercion.SettlesAs (value.coerce schema location) ((Input.ofValue location value).coerce schema)
  | .null => by
    unfold coerce Input.ofValue Input.coerce
    exact Coercion.null_settles
  | .list items => by
    unfold coerce Input.ofValue Input.coerce
    exact Coercion.valueList_settles (coerceItems_settle items)
  | .object members => by
    unfold coerce Input.ofValue Input.coerce
    exact Coercion.valueObject_settles (coerceMembers_settle members)
  | .bool _ | .int _ | .uint _ | .float _ | .string _ => by
    unfold coerce Input.ofValue Input.coerce
    exact Coercion.scalar_settles

/-- So do the items of a list. -/
theorem coerceItems_settle [LawfulMonad m] : ∀ items : List Value,
    List.Forall₂ (fun item other => Coercion.SettlesAs item other.2)
      (coerceItems schema location items)
      (Input.coerceItems schema (Input.ofValues location items))
  | [] => .nil
  | item :: rest => .cons (coerce_settles item) (coerceItems_settle rest)

/-- So do the members of an object. -/
theorem coerceMembers_settle [LawfulMonad m] : ∀ members : List (Bytes × Value),
    Coercion.MembersSettleAs location (coerceMembers schema location members)
      (Input.coerceFields schema (Input.ofMembers location members))
  | [] => .nil
  | (_, value) :: rest => .cons ⟨rfl, rfl, coerce_settles value⟩ (coerceMembers_settle rest)

end

/-- A runtime value is coerced as its tree is. -/
theorem coerce_eq (value : Value) :
    value.coerce schema location = (Input.ofValue location value).coerce schema := by
  funext type path
  exact (coerce_settles schema location value type path).eq fun _ _ h => h.1

end Value

/-! ## §5 Literals -/

namespace Literal

variable (schema : Schema m) (bindings : Members)

omit [LawfulMonad m] in
mutual

/-- A literal is coerced as its tree is. -/
theorem coerce_eq [LawfulMonad m] : ∀ literal : Literal,
    literal.coerce schema bindings = (Input.ofLiteral bindings literal).coerce schema
  | .reference location name => by
    unfold coerce Input.ofLiteral
    cases bindings.lookup name with
    | none => rfl
    | some value => exact value.coerce_eq schema (some location)
  | .list location items => by
    unfold coerce Input.ofLiteral Input.coerce
    rw [coerceItems_eq items]
  | .object location fields => by
    unfold coerce Input.ofLiteral Input.coerce
    rw [coerceEntries_eq fields]
  | .null _ | .int _ _ | .float _ _ | .string _ _ | .boolean _ _ | .enum _ _ => rfl

/-- So are the items of a list literal. -/
theorem coerceItems_eq [LawfulMonad m] : ∀ items : List Literal,
    coerceItems schema bindings items =
      Input.coerceItems schema (Input.ofLiterals bindings items)
  | [] => rfl
  | item :: rest => by
    unfold coerceItems Input.ofLiterals Input.coerceItems
    rw [coerce_eq item, coerceItems_eq rest, Input.location_ofLiteral]

/-- So are the fields of an object literal. -/
theorem coerceEntries_eq [LawfulMonad m] : ∀ fields : List (Entry Literal),
    coerceEntries schema bindings fields =
      Input.coerceFields schema (Input.ofEntries bindings fields)
  | [] => rfl
  | ⟨_, value, _⟩ :: rest => by
    unfold coerceEntries Input.ofEntries Input.coerceFields
    rw [coerce_eq value, coerceEntries_eq rest]

end

end Literal

end GraphQL
