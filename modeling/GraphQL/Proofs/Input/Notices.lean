/-
GraphQL.Proofs.Input.Notices — which deprecated fields a coercion tells of.

  §1 Notices     — what is said of deprecated fields among the issues.
  §2 Parts       — lists, objects and what is neither of them.
  §3 Input       — the uses that the coercion of values and of literals tells of.
  §4 Completion  — what a coercion gives has the uses of the completed value.

A coercion tells of a deprecated field wherever it finds a member for it, and
it cannot tell where this member came from. A coerced value has members that
were supplied and others that are defaults. So when it is coerced again, the
deprecated fields that are told of are those of the value that was supplied
together with those that defaults have added.
-/
import GraphQL.Proofs.Input.DeprecatedUses
import GraphQL.Proofs.Input.Substitution

namespace GraphQL

open MonadAttach (CanReturn)
open LawfulMonadAttach (canReturn_bind_imp' eq_of_canReturn_pure)

/-! ## §1 Notices -/

/-- What an issue with an argument says of a deprecated field, if that is what it
is about. -/
def Issue.notice? (issue : Issue) : Option Message :=
  match issue.kind with
  | .deprecated deprecation =>
    some (.inputDeprecated .argumentInput issue.path issue.typeName deprecation)
  | _ => none

/-- What a coercion tells of deprecated fields, in order. -/
def Coerced.notices (coerced : Coerced) : List Message := coerced.issues.filterMap Issue.notice?

namespace Coercion

variable {m : Type → Type} [Monad m] [LawfulMonad m] [MonadAttach m] [LawfulMonadAttach m]
  {schema : Schema m} {location : Option Location} {path : Bytes}

/-- At every type and under every path, the coercion settles, and it tells of the
uses and of nothing else that is deprecated. -/
def Notices (schema : Schema m) (usage : Usage) (coercion : Coercion m) : Prop :=
  ∀ type path coerced, CanReturn (coercion type path) coerced →
    coerced.outcome ≠ .absent ∧
      coerced.notices = (usage type).map (DeprecatedUse.message schema path)

omit [Monad m] [LawfulMonad m] [MonadAttach m] [LawfulMonadAttach m] in
theorem notices_missingField {field : Argument} :
    (missingField schema field path location).notices = [] := by
  unfold missingField
  cases field.default with
  | some value => rfl
  | none => cases field.required <;> rfl

omit [Monad m] [LawfulMonad m] [MonadAttach m] [LawfulMonadAttach m] in
theorem notices_deprecationIssues {field : Argument} :
    (deprecationIssues schema field path location).filterMap Issue.notice? =
      (DeprecatedUse.own field).map (DeprecatedUse.message schema path) := by
  unfold deprecationIssues DeprecatedUse.own
  cases field.deprecation <;> rfl

omit [Monad m] [LawfulMonad m] [MonadAttach m] [LawfulMonadAttach m] in
theorem notices_unknownFields {field? : Bytes → Option Argument} {fields : Fields m} :
    (unknownFields field? path fields).filterMap Issue.notice? = [] := by
  rw [List.filterMap_eq_nil_iff]
  intro issue hissue
  obtain ⟨field, _, rfl⟩ := List.mem_map.1 hissue
  rfl

/-! ## §2 Parts -/

theorem notices_null : Notices schema (fun _ => []) (null schema location) := by
  intro type path coerced h
  cases eq_of_canReturn_pure h
  split
  · exact ⟨by simp [invalid, Coerced.fail], rfl⟩
  · exact ⟨by simp [Coerced.ok], rfl⟩

/-- What tells of its uses at named types does so under wrappers. -/
theorem notices_single {atUse : TypeId → List DeprecatedUse}
    {atName : TypeId → Bytes → Engine m Coerced}
    (hname : ∀ id path coerced, CanReturn (atName id path) coerced →
      coerced.outcome ≠ .absent ∧
        coerced.notices = (atUse id).map (DeprecatedUse.message schema path)) :
    Notices schema (Usage.single .sole atUse) (single atName) := by
  intro type path coerced h
  induction type using TypeExpr.reading generalizing coerced with
  | named id => exact hname id path coerced h
  | nonNull inner ih =>
    rw [single_nonNull] at h
    rw [Usage.single_nonNull]
    exact ih coerced h
  | list element ih =>
    obtain ⟨⟨outcome, issues⟩, hitem, h⟩ := canReturn_bind_imp' h
    cases eq_of_canReturn_pure h
    obtain ⟨hsettled, hnotices⟩ := ih _ hitem
    rw [Usage.single, DeprecatedUse.map_message_under, InputStep.extend, ← hnotices]
    cases outcome with
    | absent => exact absurd rfl hsettled
    | ok value => exact ⟨by simp [Coerced.map], rfl⟩
    | failed => exact ⟨by simp [Coerced.map], rfl⟩

theorem notices_scalar {value : Value} :
    Notices schema (fun _ => []) (scalar schema location value) := by
  have hnone : Notices schema (Usage.single .sole fun _ => []) (scalar schema location value) := by
    refine notices_single fun id path coerced h => ?_
    obtain ⟨body, _, h⟩ := canReturn_atBody h
    cases body with
    | inputObject declared =>
      cases eq_of_canReturn_pure h
      exact ⟨by simp [invalid, Coerced.fail], rfl⟩
    | object _ => exact absurd h not_canReturn_throw
    | scalar coerce =>
      obtain ⟨given, _, h⟩ := canReturn_bind_imp' h
      cases given with
      | none =>
        cases eq_of_canReturn_pure h
        exact ⟨by simp [invalid, Coerced.fail], rfl⟩
      | some given =>
        cases eq_of_canReturn_pure h
        exact ⟨by simp [Coerced.ok], rfl⟩
  have husage : (Usage.single .sole fun _ => []) = fun _ => [] := by
    funext type
    induction type using TypeExpr.reading with
    | named id => rfl
    | nonNull inner ih => rw [Usage.single_nonNull, ih]
    | list element ih => rw [Usage.single, ih, List.map_nil]
  rwa [husage] at hnone

/-- The items of a list with the uses in each of them. -/
abbrev ItemsNotice (schema : Schema m) (usages : List Usage)
    (items : List (Option Location × Coercion m)) : Prop :=
  List.Forall₂ (fun usage item => Notices schema usage item.2) usages items

theorem ItemsNotice.parts {usages : List Usage} {items : List (Option Location × Coercion m)}
    (h : ItemsNotice schema usages items) {element : TypeExpr TypeId} {index : Nat}
    {parts : Option (List Value) × List Issue}
    (hcan : CanReturn (listItems schema element path index items) parts) :
    parts.2.filterMap Issue.notice? =
      (Usage.items element index usages).map (DeprecatedUse.message schema path) := by
  induction h generalizing index parts with
  | nil =>
    cases eq_of_canReturn_pure hcan
    rfl
  | cons hitem _ ih =>
    obtain ⟨coerced, hgiven, hcan⟩ := canReturn_bind_imp' hcan
    obtain ⟨hsettled, hfirst⟩ := hitem _ _ _ hgiven
    -- An item that settles is not read as null.
    cases houtcome : coerced.outcome with
    | absent => exact absurd houtcome hsettled
    | _ =>
      rw [houtcome] at hcan
      simp only [pure_bind] at hcan
      obtain ⟨⟨values, later⟩, hothers, hcan⟩ := canReturn_bind_imp' hcan
      cases eq_of_canReturn_pure hcan
      rw [List.filterMap_append, Usage.items, List.map_append, DeprecatedUse.map_message_under,
        ih hothers]
      exact congrArg (· ++ _) hfirst

theorem ItemsNotice.list {usages : List Usage} {items : List (Option Location × Coercion m)}
    (h : ItemsNotice schema usages items) :
    Notices schema (Usage.list usages) (list schema location items) := by
  intro type path coerced hcan
  induction type using TypeExpr.reading generalizing coerced with
  | named id =>
    obtain ⟨body, _, hcan⟩ := canReturn_atBody hcan
    cases eq_of_canReturn_pure hcan
    exact ⟨by simp [invalid, Coerced.fail], rfl⟩
  | nonNull inner ih =>
    rw [list_nonNull] at hcan
    rw [Usage.list_nonNull]
    exact ih coerced hcan
  | list element ih =>
    obtain ⟨⟨values, issues⟩, hparts, hcan⟩ := canReturn_bind_imp' hcan
    cases eq_of_canReturn_pure hcan
    exact ⟨by cases values <;> simp, h.parts hparts⟩

/-- The fields of an object with the uses in each of them. -/
abbrev FieldsNotice (schema : Schema m) (usages : List (Bytes × Usage)) (fields : Fields m) :
    Prop :=
  List.Forall₂ (fun usage field => usage.1 = field.1 ∧ Notices schema usage.2 field.2.2)
    usages fields

theorem FieldsNotice.field {usages : List (Bytes × Usage)} {fields : Fields m}
    (h : FieldsNotice schema usages fields) {field : Argument} {coerced : Coerced}
    (hcan : CanReturn (declaredField schema location fields path field) coerced) :
    coerced.notices = (Usage.field (fun _ => []) usages field).map
      (DeprecatedUse.message schema path) := by
  unfold declaredField at hcan
  unfold Usage.field
  induction h with
  | nil =>
    cases eq_of_canReturn_pure hcan
    exact notices_missingField
  | @cons usage given _ _ hmember _ ih =>
    obtain ⟨hkey, hnotices⟩ := hmember
    rw [List.lookup_cons] at hcan
    rw [List.lookup_cons, hkey]
    cases hfound : field.name == given.1 with
    | false =>
      rw [hfound] at hcan
      exact ih hcan
    | true =>
      rw [hfound] at hcan
      obtain ⟨⟨outcome, issues⟩, hresult, hcan⟩ := canReturn_bind_imp' hcan
      obtain ⟨hsettled, hinside⟩ := hnotices _ _ _ hresult
      have hmessages : (deprecationIssues schema field (partPath path field.name) given.2.1
          ++ issues).filterMap Issue.notice? =
          (DeprecatedUse.ofField field (usage.2 field.type)).map
            (DeprecatedUse.message schema path) := by
        rw [List.filterMap_append, notices_deprecationIssues, DeprecatedUse.ofField,
          DeprecatedUse.map_message_under, List.map_append]
        exact congrArg (_ ++ ·) hinside
      cases eq_of_canReturn_pure hcan
      cases outcome with
      | absent => exact absurd rfl hsettled
      | ok value => exact hmessages
      | failed => exact hmessages

theorem FieldsNotice.fields {usages : List (Bytes × Usage)} {fields : Fields m}
    (h : FieldsNotice schema usages fields) {declared : List Argument}
    {parts : Option Members × List Issue}
    (hcan : CanReturn (declaredFields schema location fields path declared) parts) :
    parts.2.filterMap Issue.notice? = (declared.flatMap (Usage.field (fun _ => []) usages)).map
      (DeprecatedUse.message schema path) := by
  induction declared generalizing parts with
  | nil =>
    cases eq_of_canReturn_pure hcan
    rfl
  | cons field declared ih =>
    obtain ⟨coerced, hfield, hcan⟩ := canReturn_bind_imp' hcan
    obtain ⟨⟨values, later⟩, hothers, hcan⟩ := canReturn_bind_imp' hcan
    cases eq_of_canReturn_pure hcan
    have hfirst := h.field hfield
    have hrest := ih hothers
    rw [List.filterMap_append, List.flatMap_cons, List.map_append, hrest]
    exact congrArg (· ++ _) hfirst

theorem FieldsNotice.object {usages : List (Bytes × Usage)} {fields : Fields m}
    (h : FieldsNotice schema usages fields) :
    Notices schema (Usage.object schema .sole (fun _ => []) usages)
      (object schema location fields) := by
  refine notices_single fun id path coerced hcan => ?_
  obtain ⟨body, hbody, hcan⟩ := canReturn_atBody hcan
  rw [hbody]
  cases body with
  | scalar coerce =>
    cases eq_of_canReturn_pure hcan
    exact ⟨by simp [invalid, Coerced.fail], rfl⟩
  | object _ =>
    cases eq_of_canReturn_pure hcan
    exact ⟨by simp [invalid, Coerced.fail], rfl⟩
  | inputObject declared =>
    obtain ⟨⟨members, issues⟩, hparts, hcan⟩ := canReturn_bind_imp' hcan
    cases eq_of_canReturn_pure hcan
    refine ⟨by cases members <;> simp, ?_⟩
    rw [Coerced.notices, List.filterMap_append, notices_unknownFields, List.nil_append]
    exact h.fields hparts

end Coercion

/-! ## §3 Input -/

section

variable {m : Type → Type} [Monad m] [LawfulMonad m] [MonadAttach m] [LawfulMonadAttach m]
  (schema : Schema m)

namespace Value

variable (location : Option Location)

omit [LawfulMonad m] [LawfulMonadAttach m] in
mutual

/-- The tree of a value is coerced with notice of the uses in the value. -/
theorem notices_ofValue [LawfulMonad m] [LawfulMonadAttach m] :
    ∀ value : Value, Coercion.Notices schema
    (value.usage schema .sole fun _ => []) ((Input.ofValue location value).coerce schema)
  | .null => by
    unfold usage Input.ofValue Input.coerce
    exact Coercion.notices_null
  | .list items => by
    unfold usage Input.ofValue Input.coerce
    exact (notices_ofValues items).list
  | .object members => by
    unfold usage Input.ofValue Input.coerce
    exact (notices_ofMembers members).object
  | .bool _ | .int _ | .uint _ | .float _ | .string _ => by
    unfold usage Input.ofValue Input.coerce
    exact Coercion.notices_scalar

/-- So are the trees of the items of a list. -/
theorem notices_ofValues [LawfulMonad m] [LawfulMonadAttach m] : ∀ items : List Value,
    Coercion.ItemsNotice schema (itemsUsage schema .sole (fun _ => []) items)
      (Input.coerceItems schema (Input.ofValues location items))
  | [] => .nil
  | item :: rest => .cons (notices_ofValue item) (notices_ofValues rest)

/-- So are the trees of the members of an object. -/
theorem notices_ofMembers [LawfulMonad m] [LawfulMonadAttach m] : ∀ members : List (Bytes × Value),
    Coercion.FieldsNotice schema (membersUsage schema .sole (fun _ => []) members)
      (Input.coerceFields schema (Input.ofMembers location members))
  | [] => .nil
  | (_, value) :: rest => .cons ⟨rfl, notices_ofValue value⟩ (notices_ofMembers rest)

end

/-- The coercion of a value tells of every deprecated field that the value
contains, in order, and of no other. -/
theorem coerce_notices (value : Value) :
    Coercion.Notices schema (value.deprecatedUses schema) (value.coerce schema location) := by
  rw [Value.coerce_eq]
  exact notices_ofValue schema location value

end Value

namespace Literal

variable (bindings : Members)

omit [LawfulMonad m] [LawfulMonadAttach m] in
mutual

/-- A literal without variables is coerced with notice of the uses in the value
that it denotes. -/
theorem coerce_notices [LawfulMonad m] [LawfulMonadAttach m] :
    ∀ literal : Literal, literal.Constant →
    Coercion.Notices schema (literal.denoted.deprecatedUses schema)
      (literal.coerce schema bindings)
  | .reference _ _, h => by
    have hreference := h _ (List.mem_singleton_self _)
    simp [isReference] at hreference
  | .list _ items, h => (coerceItems_notice items (constant_list.1 h)).list
  | .object _ fields, h => (coerceEntries_notice fields (constant_object.1 h)).object
  | .null _, _ => Coercion.notices_null
  | .int _ _, _ | .float _ _, _ | .string _ _, _ | .boolean _ _, _ | .enum _ _, _ =>
    Coercion.notices_scalar

/-- So are the items of a list. -/
theorem coerceItems_notice [LawfulMonad m] [LawfulMonadAttach m] :
    ∀ items : List Literal, (∀ item ∈ items, item.Constant) →
    Coercion.ItemsNotice schema (Value.itemsUsage schema .sole (fun _ => []) (itemsDenoted items))
      (coerceItems schema bindings items)
  | [], _ => .nil
  | item :: rest, h =>
    have ⟨hitem, hrest⟩ := List.forall_mem_cons.1 h
    .cons (coerce_notices item hitem) (coerceItems_notice rest hrest)

/-- So are the fields of an object. -/
theorem coerceEntries_notice [LawfulMonad m] [LawfulMonadAttach m] :
    ∀ fields : List (Entry Literal),
    (∀ field ∈ fields, field.value.Constant) →
    Coercion.FieldsNotice schema
      (Value.membersUsage schema .sole (fun _ => []) (fieldsDenoted fields))
      (coerceEntries schema bindings fields)
  | [], _ => .nil
  | ⟨_, value, _⟩ :: rest, h =>
    have ⟨hvalue, hrest⟩ := List.forall_mem_cons.1 h
    .cons ⟨rfl, coerce_notices value hvalue⟩ (coerceEntries_notice rest hrest)

end

end Literal

end

/-! ## §4 Completion -/

namespace Usage

/-- A member does not matter for fields of other names. -/
theorem flatMap_field_cons {fill : Argument → List DeprecatedUse} {declared : List Argument}
    {name : Bytes} (hfresh : name ∉ declared.map (·.name)) (usage : Usage)
    (members : List (Bytes × Usage)) :
    declared.flatMap (Usage.field fill ((name, usage) :: members)) =
      declared.flatMap (Usage.field fill members) := by
  refine List.flatMap_congr fun field hfield => ?_
  have hne : field.name ≠ name := fun heq => hfresh (List.mem_map.2 ⟨field, hfield, heq⟩)
  rw [Usage.field, Usage.field, List.lookup_cons, beq_eq_false_iff_ne.2 hne]

end Usage

variable {m : Type → Type} [Monad m] [MonadAttach m] {schema : Schema m}

omit [Monad m] [MonadAttach m] in
/-- The uses that a default adds are those in the member that it fills in. -/
theorem Schema.map_asGiven_filledUses {field : Argument} {default : Value}
    (h : field.default = some default) : (schema.filledUses field).map .asGiven =
      DeprecatedUse.ofField field (default.deprecatedUses schema field.type) := by
  unfold filledUses
  rw [h]
  calc ((DeprecatedUse.ofField field (default.deprecatedUses schema field.type)).map
        .fromDefault).map .asGiven
    _ = (DeprecatedUse.ofField field (default.deprecatedUses schema field.type)).map .asGiven := by
      rw [List.map_map]
      rfl
    _ = DeprecatedUse.ofField field (default.deprecatedUses schema field.type) := by
      rw [DeprecatedUse.map_asGiven_ofField, Value.map_asGiven_deprecatedUses]

mutual

/-- The uses in what a value is coerced to are those in the completed value. -/
theorem Coerces.deprecatedUses_eq (hnames : schema.DistinctFields) {type : TypeExpr TypeId}
    {value result : Value} (h : Coerces schema type value result) :
    result.deprecatedUses schema type = (value.completedUses schema type).map .asGiven := by
  unfold Value.deprecatedUses Value.completedUses
  match h with
  | .null _ => simp [Value.usage]
  | .nonNull _ hinner =>
    rw [Value.usage_nonNull, Value.usage_nonNull]
    exact hinner.deprecatedUses_eq hnames
  | .list hitems => exact hitems.deprecatedUses_eq hnames 0
  | .single _ hlist hvalue =>
    have hitem := hvalue.deprecatedUses_eq hnames
    unfold Value.deprecatedUses Value.completedUses at hitem
    rw [Value.usage_single hlist]
    simp only [Value.usage, Value.itemsUsage, Usage.list, TypeExpr.nullable, Usage.items,
      List.append_nil, hitem, List.map_map]
    rfl
  | .scalar hbody hleaf _ =>
    rw [Value.usage_scalar hbody, Value.usage_leaf hleaf]
    rfl
  | .object hbody hmembers =>
    rw [Value.usage_object hbody, Value.usage_object hbody]
    exact hmembers.deprecatedUses_eq hnames (hnames _ _ hbody)
termination_by structural h

/-- So are those in the items of a list. -/
theorem ItemsCoerce.deprecatedUses_eq (hnames : schema.DistinctFields)
    {element : TypeExpr TypeId} {items results : List Value}
    (h : ItemsCoerce schema element items results) (index : Nat) :
    Usage.items element index (Value.itemsUsage schema .sole (fun _ => []) results) =
      (Usage.items element index
        (Value.itemsUsage schema (.item 0) schema.filledUses items)).map .asGiven := by
  match h with
  | .nil => rfl
  | .cons hitem hitems =>
    have hfirst := hitem.deprecatedUses_eq hnames
    have hrest := hitems.deprecatedUses_eq hnames (index + 1)
    unfold Value.deprecatedUses Value.completedUses at hfirst
    simp only [Value.itemsUsage, Usage.items, List.map_append, hfirst, hrest, List.map_map]
    rfl
termination_by structural h

/-- So are those in the members of an object. -/
theorem MembersCoerce.deprecatedUses_eq (hnames : schema.DistinctFields)
    {declared : List Argument} {members results : Members}
    (h : MembersCoerce schema members declared results)
    (hdeclared : (declared.map (·.name)).Nodup) :
    declared.flatMap (Usage.field (fun _ => [])
        (Value.membersUsage schema .sole (fun _ => []) results)) =
      (declared.flatMap (Usage.field schema.filledUses
        (Value.membersUsage schema (.item 0) schema.filledUses members))).map .asGiven := by
  match h with
  | .nil => rfl
  | .given hvalue hresult hrest =>
    obtain ⟨hfresh, hdeclared⟩ := List.nodup_cons.1 hdeclared
    have hfirst := hresult.deprecatedUses_eq hnames
    have hothers := hrest.deprecatedUses_eq hnames hdeclared
    unfold Value.deprecatedUses Value.completedUses at hfirst
    rw [List.flatMap_cons, List.flatMap_cons, List.map_append, ← hothers, Value.membersUsage,
      Usage.flatMap_field_cons hfresh]
    congr 1
    rw [Usage.field, List.lookup_cons_self, Usage.field, Value.lookup_membersUsage, hvalue]
    simp only [Option.map_some, hfirst, DeprecatedUse.map_asGiven_ofField]
  | .completed hnone hdefault hrest =>
    obtain ⟨hfresh, hdeclared⟩ := List.nodup_cons.1 hdeclared
    have hothers := hrest.deprecatedUses_eq hnames hdeclared
    rw [List.flatMap_cons, List.flatMap_cons, List.map_append, ← hothers, Value.membersUsage,
      Usage.flatMap_field_cons hfresh]
    congr 1
    rw [Usage.field, List.lookup_cons_self, Usage.field, Value.lookup_membersUsage, hnone]
    exact (Schema.map_asGiven_filledUses hdefault).symm
  | .absent hnone hdefault _ hrest =>
    obtain ⟨hfresh, hdeclared⟩ := List.nodup_cons.1 hdeclared
    have hothers := hrest.deprecatedUses_eq hnames hdeclared
    have hmissing : results.lookup _ = none :=
      lookup_eq_none_of_keys fun hkey => hfresh (hrest.keys_sublist.subset hkey)
    rw [List.flatMap_cons, List.flatMap_cons, List.map_append, ← hothers]
    congr 1
    rw [Usage.field, Value.lookup_membersUsage, hmissing, Usage.field, Value.lookup_membersUsage,
      hnone]
    simp [Schema.filledUses, hdefault]
termination_by structural h

end

end GraphQL
