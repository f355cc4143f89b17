/-
GraphQL.Proofs.Input.Coerces — what a successful coercion of a value has done.

  §1 Relation     — a value of a type and the value that it is coerced to.
  §2 Parts        — what lists and objects give when they succeed.
  §3 Values       — a coercion that succeeds follows the relation.
  §4 Completion   — the defaults that a coercion fills in.
  §5 Conformance  — coerced values conform if these defaults do.

The relation leaves out issues, paths and places, and it has no failing cases,
so that results can be followed by induction on it. It is about runtime values,
which have no variables and no places of their own.
-/
import GraphQL.Proofs.Input.SoundCoercion

namespace GraphQL

open MonadAttach (CanReturn)
open LawfulMonadAttach (canReturn_bind_imp' eq_of_canReturn_pure)

/-! ## §1 Relation -/

mutual

/-- A value coerced to a type, with its result. -/
inductive Coerces {m : Type → Type} [Monad m] [MonadAttach m] (schema : Schema m) :
    TypeExpr TypeId → Value → Value → Prop
  | null {type : TypeExpr TypeId} :
    type.isNonNull = false → Coerces schema type .null .null
  | nonNull {inner : TypeExpr TypeId} {value result : Value} :
    value ≠ .null → Coerces schema inner.unmarked value result →
    Coerces schema (.nonNull inner) value result
  | list {element : TypeExpr TypeId} {items results : List Value} :
    ItemsCoerce schema element items results →
    Coerces schema (.list element) (.list items) (.list results)
  /-- What is not a list stands for a list of one. -/
  | single {element : TypeExpr TypeId} {value result : Value} :
    value ≠ .null → value.isList = false → Coerces schema element value result →
    Coerces schema (.list element) value (.list [result])
  | scalar {id : TypeId} {coerce : Coercer m} {value result : Value} :
    schema.body? id = some (.scalar coerce) → value.isLeaf = true →
    CanReturn (coerce value) (some result) → Coerces schema (.named id) value result
  | object {id : TypeId} {declared : List Argument} {members results : Members} :
    schema.body? id = some (.inputObject declared) →
    MembersCoerce schema members declared results →
    Coerces schema (.named id) (.object members) (.object results)

/-- The items of a list, coerced one by one. -/
inductive ItemsCoerce {m : Type → Type} [Monad m] [MonadAttach m] (schema : Schema m) :
    TypeExpr TypeId → List Value → List Value → Prop
  | nil {element : TypeExpr TypeId} : ItemsCoerce schema element [] []
  | cons {element : TypeExpr TypeId} {item result : Value} {items results : List Value} :
    Coerces schema element item result → ItemsCoerce schema element items results →
    ItemsCoerce schema element (item :: items) (result :: results)

/-- Declared fields filled from the members of an object, in declaration order. -/
inductive MembersCoerce {m : Type → Type} [Monad m] [MonadAttach m] (schema : Schema m) :
    Members → List Argument → Members → Prop
  | nil {members : Members} : MembersCoerce schema members [] []
  | given {members : Members} {field : Argument} {declared : List Argument}
      {value result : Value} {results : Members} :
    members.lookup field.name = some value → Coerces schema field.type value result →
    MembersCoerce schema members declared results →
    MembersCoerce schema members (field :: declared) ((field.name, result) :: results)
  /-- A field without member takes its default. -/
  | completed {members : Members} {field : Argument} {declared : List Argument}
      {default : Value} {results : Members} :
    members.lookup field.name = none → field.default = some default →
    MembersCoerce schema members declared results →
    MembersCoerce schema members (field :: declared) ((field.name, default) :: results)
  | absent {members : Members} {field : Argument} {declared : List Argument}
      {results : Members} :
    members.lookup field.name = none → field.default = none → field.type.isNonNull = false →
    MembersCoerce schema members declared results →
    MembersCoerce schema members (field :: declared) results

end

/-! ## §2 Parts -/

/-- The result of a coercion follows the relation: it is a value that is related
to the input, or a failure with an issue that says so. -/
def Coerced.Follows {m : Type → Type} [Monad m] [MonadAttach m] (schema : Schema m)
    (type : TypeExpr TypeId) (value : Value) (coerced : Coerced) : Prop :=
  match coerced.outcome with
  | .ok result => Coerces schema type value result
  | .absent => False
  | .failed => SomeFails coerced.issues

/-- What is not null follows the relation under a non-null marker as well. -/
theorem Coerced.Follows.nonNull {m : Type → Type} [Monad m] [MonadAttach m] {schema : Schema m}
    {inner : TypeExpr TypeId} {value : Value} {coerced : Coerced} (hnull : value ≠ .null)
    (h : coerced.Follows schema inner.unmarked value) :
    coerced.Follows schema (.nonNull inner) value := by
  obtain ⟨outcome, issues⟩ := coerced
  cases outcome with
  | ok result => exact Coerces.nonNull hnull h
  | absent => exact h
  | failed => exact h

variable {m : Type → Type} [Monad m] [LawfulMonad m] [MonadAttach m] [LawfulMonadAttach m]

namespace Coercion

variable {schema : Schema m} {location : Option Location} {path : Bytes}

/-- A coercion of a value all of whose results follow the relation. -/
def Follows (schema : Schema m) (value : Value) (coercion : Coercion m) : Prop :=
  ∀ type path coerced, CanReturn (coercion type path) coerced →
    coerced.Follows schema type value

omit [LawfulMonad m] [LawfulMonadAttach m] in
theorem follows_invalid {expected type : TypeExpr TypeId} {value : Value} :
    (invalid schema location expected path).Follows schema type value :=
  ⟨_, List.mem_cons_self, rfl⟩

/-- What is no list follows the relation under wrappers if it does so at named types. -/
theorem follows_single {value : Value} (hnull : value ≠ .null) (hlist : value.isList = false)
    {atName : TypeId → Bytes → Engine m Coerced}
    (hname : ∀ id path coerced, CanReturn (atName id path) coerced →
      coerced.Follows schema (.named id) value) : Follows schema value (single atName) := by
  intro type path coerced h
  induction type using TypeExpr.reading generalizing coerced with
  | named id => exact hname id path coerced h
  | nonNull inner ih =>
    rw [single_nonNull] at h
    exact (ih _ h).nonNull hnull
  | list element ih =>
    obtain ⟨⟨outcome, issues⟩, hitem, h⟩ := canReturn_bind_imp' h
    cases eq_of_canReturn_pure h
    have helement := ih _ hitem
    cases outcome with
    | ok value => exact .single hnull hlist helement
    | absent => exact helement
    | failed => exact helement

theorem follows_null : Follows schema .null (null schema location) := by
  intro type path coerced h
  cases eq_of_canReturn_pure h
  cases hnonNull : type.isNonNull with
  | true => exact follows_invalid
  | false => exact .null hnonNull

theorem follows_scalar {value : Value} (hleaf : value.isLeaf = true) :
    Follows schema value (scalar schema location value) := by
  have hnull : value ≠ .null := by
    rintro rfl
    cases hleaf
  have hlist : value.isList = false := by
    cases value with
    | list => cases hleaf
    | _ => rfl
  refine follows_single hnull hlist fun id path coerced h => ?_
  obtain ⟨body, hbody, h⟩ := canReturn_atBody h
  cases body with
  | inputObject declared =>
    cases eq_of_canReturn_pure h
    exact follows_invalid
  | object _ => exact absurd h not_canReturn_throw
  | scalar coerce =>
    obtain ⟨given, hgiven, h⟩ := canReturn_bind_imp' h
    cases given with
    | none =>
      cases eq_of_canReturn_pure h
      exact follows_invalid
    | some given =>
      cases eq_of_canReturn_pure h
      exact .scalar hbody hleaf hgiven

/-- Items with coercions that follow the relation. -/
abbrev ItemsFollow (schema : Schema m) (items : List Value) (coercions : List (Coercion m)) :
    Prop :=
  List.Forall₂ (Follows schema) items coercions

theorem ItemsFollow.parts {items : List Value} {coercions : List (Coercion m)}
    (h : ItemsFollow schema items coercions) {element : TypeExpr TypeId} {index : Nat}
    {parts : Option (List Value) × List Issue}
    (hcan : CanReturn (valueItems element path index coercions) parts) :
    PartsFit (ItemsCoerce schema element items) parts := by
  induction h generalizing index parts with
  | nil =>
    cases eq_of_canReturn_pure hcan
    exact .nil
  | cons hitem _ ih =>
    obtain ⟨⟨outcome, found⟩, hgiven, hcan⟩ := canReturn_bind_imp' hcan
    obtain ⟨⟨values, later⟩, hothers, hcan⟩ := canReturn_bind_imp' hcan
    cases eq_of_canReturn_pure hcan
    have hfollows := hitem _ _ _ hgiven
    have hrest := ih hothers
    cases outcome with
    | absent => exact hfollows.elim
    | failed => exact SomeFails.append_left hfollows
    | ok value =>
      cases values with
      | none => exact SomeFails.append_right hrest
      | some values => exact .cons hfollows hrest

theorem ItemsFollow.list {items : List Value} {coercions : List (Coercion m)}
    (h : ItemsFollow schema items coercions) :
    Follows schema (.list items) (valueList schema location coercions) := by
  intro type path coerced hcan
  induction type using TypeExpr.reading generalizing coerced with
  | named id =>
    obtain ⟨body, _, hcan⟩ := canReturn_atBody hcan
    cases eq_of_canReturn_pure hcan
    exact follows_invalid
  | nonNull inner ih =>
    rw [valueList_nonNull] at hcan
    exact (ih _ hcan).nonNull (by simp)
  | list element ih =>
    obtain ⟨⟨values, found⟩, hparts, hcan⟩ := canReturn_bind_imp' hcan
    cases eq_of_canReturn_pure hcan
    have hparts := h.parts hparts
    cases values with
    | none => exact hparts
    | some values => exact .list hparts

/-- Members with coercions that follow the relation. -/
abbrev MembersFollow (schema : Schema m) (members : Members) (supplied : Supplied m) : Prop :=
  List.Forall₂ (fun member given => member.1 = given.1 ∧ Follows schema member.2 given.2)
    members supplied

omit [LawfulMonad m] [LawfulMonadAttach m] in
theorem MembersFollow.lookup {members : Members} {supplied : Supplied m}
    (h : MembersFollow schema members supplied) (name : Bytes) :
    (members.lookup name = none ∧ supplied.lookup name = none) ∨
      ∃ value coercion, members.lookup name = some value ∧
        supplied.lookup name = some coercion ∧ Follows schema value coercion := by
  have hfound : Option.Rel (Follows schema) (members.lookup name) (supplied.lookup name) :=
    lookup_rel h name
  generalize members.lookup name = member at hfound ⊢
  generalize supplied.lookup name = given at hfound ⊢
  cases hfound with
  | none => exact .inl ⟨rfl, rfl⟩
  | some hfollows => exact .inr ⟨_, _, rfl, rfl, hfollows⟩

/-- What a runtime object gives for one of its declared fields: the coerced
member, or what a missing field has. -/
def FieldFollows (schema : Schema m) (members : Members) (field : Argument)
    (coerced : Coerced) : Prop :=
  match coerced.outcome with
  | .ok result =>
    (∃ value, members.lookup field.name = some value ∧ Coerces schema field.type value result) ∨
      (members.lookup field.name = none ∧ field.default = some result)
  | .absent =>
    members.lookup field.name = none ∧ field.default = none ∧ field.type.isNonNull = false
  | .failed => SomeFails coerced.issues

omit [LawfulMonad m] [LawfulMonadAttach m] in
theorem fieldFollows_missingField {members : Members} {field : Argument}
    (h : members.lookup field.name = none) :
    FieldFollows schema members field (missingField schema field path location) := by
  unfold missingField
  cases hdefault : field.default with
  | some value => exact .inr ⟨h, hdefault⟩
  | none =>
    cases hrequired : field.required with
    | true => exact ⟨_, List.mem_cons_self, rfl⟩
    | false =>
      refine ⟨h, hdefault, ?_⟩
      simpa [Argument.required, hdefault] using hrequired

theorem MembersFollow.field {members : Members} {supplied : Supplied m}
    (h : MembersFollow schema members supplied) {field : Argument} {coerced : Coerced}
    (hcan : CanReturn (valueField schema location supplied path field) coerced) :
    FieldFollows schema members field coerced := by
  unfold valueField at hcan
  rcases h.lookup field.name with ⟨hnone, hmissing⟩ | ⟨value, coercion, hvalue, hgiven, hfollows⟩
  · rw [hmissing] at hcan
    cases eq_of_canReturn_pure hcan
    exact fieldFollows_missingField hnone
  · rw [hgiven] at hcan
    obtain ⟨⟨outcome, issues⟩, hresult, hcan⟩ := canReturn_bind_imp' hcan
    cases eq_of_canReturn_pure hcan
    have hresult := hfollows _ _ _ hresult
    cases outcome with
    | ok result => exact .inl ⟨value, hvalue, hresult⟩
    | absent => exact hresult.elim
    | failed => exact SomeFails.append_right hresult

theorem MembersFollow.fields {members : Members} {supplied : Supplied m}
    (h : MembersFollow schema members supplied) {declared : List Argument}
    {parts : Option Members × List Issue}
    (hcan : CanReturn (valueFields schema location supplied path declared) parts) :
    PartsFit (MembersCoerce schema members declared) parts := by
  induction declared generalizing parts with
  | nil =>
    cases eq_of_canReturn_pure hcan
    exact .nil
  | cons field declared ih =>
    obtain ⟨⟨outcome, found⟩, hfield, hcan⟩ := canReturn_bind_imp' hcan
    obtain ⟨⟨values, later⟩, hothers, hcan⟩ := canReturn_bind_imp' hcan
    cases eq_of_canReturn_pure hcan
    have hfollows := h.field hfield
    have hrest := ih hothers
    cases outcome with
    | failed => exact SomeFails.append_left hfollows
    | absent =>
      obtain ⟨hnone, hdefault, hnull⟩ := hfollows
      cases values with
      | none => exact SomeFails.append_right hrest
      | some values => exact .absent hnone hdefault hnull hrest
    | ok result =>
      cases values with
      | none => exact SomeFails.append_right hrest
      | some values =>
        rcases hfollows with ⟨value, hvalue, hresult⟩ | ⟨hnone, hdefault⟩
        · exact .given hvalue hresult hrest
        · exact .completed hnone hdefault hrest

theorem MembersFollow.object {members : Members} {supplied : Supplied m}
    (h : MembersFollow schema members supplied) :
    Follows schema (.object members) (valueObject schema location supplied) := by
  refine follows_single (by simp) rfl fun id path coerced hcan => ?_
  obtain ⟨body, hbody, hcan⟩ := canReturn_atBody hcan
  cases body with
  | scalar coerce =>
    cases eq_of_canReturn_pure hcan
    exact follows_invalid
  | object _ =>
    cases eq_of_canReturn_pure hcan
    exact follows_invalid
  | inputObject declared =>
    obtain ⟨⟨values, issues⟩, hparts, hcan⟩ := canReturn_bind_imp' hcan
    cases eq_of_canReturn_pure hcan
    have hparts := h.fields hparts
    cases values with
    | none => exact SomeFails.append_right hparts
    | some results => exact .object hbody hparts

end Coercion

/-! ## §3 Values -/

namespace Value

variable (schema : Schema m) (location : Option Location)

omit [LawfulMonad m] [LawfulMonadAttach m] in
mutual

/-- Every result of the coercion of a value follows the relation. -/
theorem coerce_follows [LawfulMonad m] [LawfulMonadAttach m] : ∀ value : Value,
    Coercion.Follows schema value (value.coerce schema location)
  | .null => Coercion.follows_null
  | .list items => (coerceItems_follow items).list
  | .object members => (coerceMembers_follow members).object
  | .bool _ | .int _ | .uint _ | .float _ | .string _ => Coercion.follows_scalar rfl

/-- So does that of every item of a list. -/
theorem coerceItems_follow [LawfulMonad m] [LawfulMonadAttach m] : ∀ items : List Value,
    Coercion.ItemsFollow schema items (coerceItems schema location items)
  | [] => .nil
  | item :: rest => .cons (coerce_follows item) (coerceItems_follow rest)

/-- So does that of every member of an object. -/
theorem coerceMembers_follow [LawfulMonad m] [LawfulMonadAttach m] :
    ∀ members : List (Bytes × Value),
    Coercion.MembersFollow schema members (coerceMembers schema location members)
  | [] => .nil
  | (_, value) :: rest => .cons ⟨rfl, coerce_follows value⟩ (coerceMembers_follow rest)

end

/-- A value that a coercion gives is related to the value that is coerced. -/
theorem coerces_of_canReturn {schema : Schema m} {location : Option Location} {value result : Value}
    {type : TypeExpr TypeId} {path : Bytes} {issues : List Issue}
    (h : CanReturn (value.coerce schema location type path) ⟨.ok result, issues⟩) :
    Coerces schema type value result :=
  coerce_follows schema location value type path _ h

end Value

/-! ## §4 Completion -/

/-- The defaults that a coercion of the value to the type fills in, each given
by its input object type and its position among the declared fields. -/
inductive Completes (types : TypeId → Option InputBody) :
    TypeExpr TypeId → Value → TypeId → Nat → Prop
  | nonNull {inner : TypeExpr TypeId} {value : Value} {owner : TypeId} {index : Nat} :
    Completes types inner.unmarked value owner index →
    Completes types (.nonNull inner) value owner index
  | item {element : TypeExpr TypeId} {items : List Value} {item : Value} {owner : TypeId}
      {index : Nat} :
    item ∈ items → Completes types element item owner index →
    Completes types (.list element) (.list items) owner index
  | single {element : TypeExpr TypeId} {value : Value} {owner : TypeId} {index : Nat} :
    value.isList = false → Completes types element value owner index →
    Completes types (.list element) value owner index
  /-- A field without member that has a default. -/
  | here {id : TypeId} {declared : List Argument} {members : Members} {index : Nat}
      {field : Argument} {default : Value} :
    types id = some (.inputObject declared) → declared[index]? = some field →
    members.lookup field.name = none → field.default = some default →
    Completes types (.named id) (.object members) id index
  | member {id : TypeId} {declared : List Argument} {members : Members} {field : Argument}
      {value : Value} {owner : TypeId} {index : Nat} :
    types id = some (.inputObject declared) → field ∈ declared →
    members.lookup field.name = some value → Completes types field.type value owner index →
    Completes types (.named id) (.object members) owner index

/-! ## §5 Conformance -/

/-- The declared field at a position of an input object type. -/
def declaredAt? (types : TypeId → Option InputBody) (owner : TypeId) (index : Nat) :
    Option Argument :=
  match types owner with
  | some (.inputObject declared) => declared[index]?
  | _ => none

theorem declaredAt?_of_inputObject {types : TypeId → Option InputBody} {owner : TypeId}
    {declared : List Argument} (h : types owner = some (.inputObject declared)) (index : Nat) :
    declaredAt? types owner index = declared[index]? := by
  rw [declaredAt?, h]

theorem exists_of_declaredAt? {types : TypeId → Option InputBody} {owner : TypeId} {index : Nat}
    {field : Argument} (h : declaredAt? types owner index = some field) :
    ∃ declared, types owner = some (.inputObject declared) ∧ declared[index]? = some field := by
  unfold declaredAt? at h
  split at h
  · rename_i declared htype
    exact ⟨declared, htype, h⟩
  · cases h

/-- The default of the field at a position conforms to the field's type. -/
def DefaultConformsAt (types : TypeId → Option InputBody) (owner : TypeId) (index : Nat) : Prop :=
  ∀ field, declaredAt? types owner index = some field → field.DefaultConforms types

/-- No scalar of the schema takes anything for null. -/
def Schema.NullFree (schema : Schema m) : Prop :=
  ∀ id coerce, schema.body? id = some (.scalar coerce) → ¬ coerce.Gives .null

omit [LawfulMonad m] [LawfulMonadAttach m]

variable {schema : Schema m}

theorem Schema.inputBody?_scalar {id : TypeId} {coerce : Coercer m}
    (h : schema.body? id = some (.scalar coerce)) :
    schema.inputBody? id = some (.scalar coerce.Gives) := by
  rw [inputBody?, h]

theorem Schema.inputBody?_inputObject {id : TypeId} {declared : List Argument}
    (h : schema.body? id = some (.inputObject declared)) :
    schema.inputBody? id = some (.inputObject declared) := by
  rw [inputBody?, h]

/-- What is not null is not coerced to null. -/
theorem Coerces.ne_null (hschema : schema.NullFree) {type : TypeExpr TypeId} {value result : Value}
    (h : Coerces schema type value result) (hne : value ≠ .null) : result ≠ .null := by
  match h with
  | .null _ => exact absurd rfl hne
  | .nonNull _ hinner => exact hinner.ne_null hschema hne
  | .list _ => simp
  | .single _ _ _ => simp
  | .object _ _ => simp
  | .scalar hbody _ hgives =>
    rintro rfl
    exact hschema _ _ hbody ⟨_, hgives⟩
termination_by structural h

mutual

/-- What a value is coerced to conforms, if the defaults that complete it do. -/
theorem Coerces.conforms (hschema : schema.NullFree) {type : TypeExpr TypeId}
    {value result : Value} (h : Coerces schema type value result)
    (hdefaults : ∀ owner index, Completes schema.inputBody? type value owner index →
      DefaultConformsAt schema.inputBody? owner index) :
    Conforms schema.inputBody? type result := by
  match h with
  | .null htype => exact .null htype
  | .nonNull hne hinner =>
    exact .nonNull (hinner.ne_null hschema hne)
      (hinner.conforms hschema fun owner index hc => hdefaults owner index (.nonNull hc))
  | .list hitems =>
    exact .list (hitems.conform hschema fun item hitem owner index hc =>
      hdefaults owner index (.item hitem hc))
  | .single _ hlist hvalue =>
    refine .list fun item hitem => ?_
    rw [List.mem_singleton.1 hitem]
    exact hvalue.conforms hschema fun owner index hc => hdefaults owner index (.single hlist hc)
  | .scalar hbody _ hgives => exact .scalar (Schema.inputBody?_scalar hbody) ⟨_, hgives⟩
  | .object hbody hmembers =>
    have hdeclared := Schema.inputBody?_inputObject hbody
    refine .object hdeclared (hmembers.conform hschema ?_ ?_)
    · intro field hfield value hvalue owner index hc
      exact hdefaults owner index (.member hdeclared hfield hvalue hc)
    · intro field hfield hnone default hdefault
      obtain ⟨index, hindex⟩ := List.mem_iff_getElem?.1 hfield
      refine hdefaults _ index (.here hdeclared hindex hnone hdefault) field ?_ default hdefault
      rw [declaredAt?_of_inputObject hdeclared, hindex]
termination_by structural h

/-- So do the items of a list. -/
theorem ItemsCoerce.conform (hschema : schema.NullFree) {element : TypeExpr TypeId}
    {items results : List Value} (h : ItemsCoerce schema element items results)
    (hdefaults : ∀ item ∈ items, ∀ owner index,
      Completes schema.inputBody? element item owner index →
      DefaultConformsAt schema.inputBody? owner index) :
    ∀ result ∈ results, Conforms schema.inputBody? element result := by
  match h with
  | .nil => simp
  | .cons hitem hitems =>
    obtain ⟨hfirst, hrest⟩ := List.forall_mem_cons.1 hdefaults
    exact List.forall_mem_cons.2 ⟨hitem.conforms hschema hfirst, hitems.conform hschema hrest⟩
termination_by structural h

/-- So do the members of an object. -/
theorem MembersCoerce.conform (hschema : schema.NullFree) {declared : List Argument}
    {members results : Members} (h : MembersCoerce schema members declared results)
    (hgiven : ∀ field ∈ declared, ∀ value, members.lookup field.name = some value →
      ∀ owner index, Completes schema.inputBody? field.type value owner index →
      DefaultConformsAt schema.inputBody? owner index)
    (hmissing : ∀ field ∈ declared, members.lookup field.name = none →
      field.DefaultConforms schema.inputBody?) :
    MembersConform schema.inputBody? declared results := by
  match h with
  | .nil => exact .nil
  | .given hvalue hresult hrest =>
    obtain ⟨hfirst, hgiven⟩ := List.forall_mem_cons.1 hgiven
    obtain ⟨_, hmissing⟩ := List.forall_mem_cons.1 hmissing
    exact .present (hresult.conforms hschema (hfirst _ hvalue))
      (hrest.conform hschema hgiven hmissing)
  | .completed hnone hdefault hrest =>
    obtain ⟨_, hgiven⟩ := List.forall_mem_cons.1 hgiven
    obtain ⟨hfirst, hmissing⟩ := List.forall_mem_cons.1 hmissing
    exact .present (hfirst hnone _ hdefault) (hrest.conform hschema hgiven hmissing)
  | .absent _ hdefault htype hrest =>
    obtain ⟨_, hgiven⟩ := List.forall_mem_cons.1 hgiven
    obtain ⟨_, hmissing⟩ := List.forall_mem_cons.1 hmissing
    exact .absent htype hdefault (hrest.conform hschema hgiven hmissing)
termination_by structural h

end

end GraphQL
