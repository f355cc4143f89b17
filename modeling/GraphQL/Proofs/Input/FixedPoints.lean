/-
GraphQL.Proofs.Input.FixedPoints — values that coercion leaves as they are.

  §1 Schemas      — scalars that keep what they give, fields of distinct names.
  §2 Parts        — scalars, lists and objects that are kept.
  §3 Conformance  — what conforms is kept, and what is kept conforms.
  §4 Idempotence  — what is given by a coercion is kept by a second one.

A value that conforms to a type comes back unchanged, members in order and
numbers in their representation, and the most that is said of it is that
deprecated fields are given. With defaults that come back unchanged, whatever
coercion gives conforms.
-/
import GraphQL.Proofs.Input.Coerces
import GraphQL.Proofs.Schema.BuiltIn
import GraphQL.Proofs.Schema.Tables
import GraphQL.Proofs.Value.Equality
import GraphQL.Proofs.Value.Members
import Mathlib.Data.List.Nodup

namespace GraphQL

open MonadAttach (CanReturn)

/-! ## §1 Schemas -/

section Schemas

variable {m : Type → Type} [Monad m] [MonadAttach m]

/-- Every scalar keeps what it gives. -/
def Schema.ScalarsIdempotent (schema : Schema m) : Prop :=
  ∀ id coerce, schema.body? id = some (.scalar coerce) → coerce.Idempotent

/-- The fields of an input object have different names, as they do in every
schema that is built. -/
def Schema.DistinctFields {m : Type → Type} (schema : Schema m) : Prop :=
  ∀ id declared, schema.body? id = some (.inputObject declared) →
    (declared.map (·.name)).Nodup

/-- Every default of an input field is coerced to itself. -/
def Schema.InputDefaultsKept (schema : Schema m) : Prop :=
  ∀ id declared, schema.body? id = some (.inputObject declared) →
    ∀ field ∈ declared, ∀ default, field.default = some default → ∃ location path issues,
      CanReturn (default.coerce schema location field.type path) ⟨.ok default, issues⟩

theorem Schema.ScalarsIdempotent.nullFree {schema : Schema m} (h : schema.ScalarsIdempotent) :
    schema.NullFree := by
  intro id coerce hbody hgives
  have hleaf := (h id coerce hbody).leaf _ hgives
  cases hleaf

/-- What a scalar of the schema gives, in terms of what the type consists of. -/
theorem Schema.ScalarsIdempotent.of_inputBody? {schema : Schema m} (h : schema.ScalarsIdempotent)
    {id : TypeId} {gives : Value → Prop} (htype : schema.inputBody? id = some (.scalar gives)) :
    ∃ coerce, schema.body? id = some (.scalar coerce) ∧ coerce.Idempotent ∧
      gives = coerce.Gives := by
  unfold inputBody? at htype
  split at htype
  · rename_i coerce hbody
    cases htype
    exact ⟨coerce, hbody, h id coerce hbody, rfl⟩
  · cases htype
  · cases htype

theorem Schema.body?_of_inputBody? {schema : Schema m} {id : TypeId} {declared : List Argument}
    (htype : schema.inputBody? id = some (.inputObject declared)) :
    schema.body? id = some (.inputObject declared) := by
  unfold inputBody? at htype
  split at htype
  · cases htype
  · rename_i hbody
    cases htype
    exact hbody
  · cases htype

end Schemas

/-- The issue is the notice that a deprecated field is given. -/
def Issue.IsNotice (issue : Issue) : Prop := ∃ deprecation, issue.kind = .deprecated deprecation

/-! ## §2 Parts -/

namespace Value

variable {m : Type → Type} [Monad m] (schema : Schema m)

theorem lookup_coerceMembers (location : Option Location) (name : Bytes)
    (members : List (Bytes × Value)) : (coerceMembers schema location members).lookup name =
      (members.lookup name).map (coerce schema location) := by
  induction members with
  | nil => rfl
  | cons member rest ih =>
    obtain ⟨key, value⟩ := member
    rw [coerceMembers, List.lookup_cons, List.lookup_cons, ih]
    cases name == key <;> rfl

theorem keys_coerceMembers (location : Option Location) (members : List (Bytes × Value)) :
    (coerceMembers schema location members).map (·.1) = members.map (·.1) := by
  induction members with
  | nil => rfl
  | cons member rest ih =>
    obtain ⟨key, value⟩ := member
    rw [coerceMembers, List.map_cons, List.map_cons, ih]

end Value

variable {m : Type → Type} [Monad m] [LawfulMonad m]

namespace Coercion

variable {schema : Schema m} {location : Option Location}

/-- At the type the coercion gives the value, and there is nothing wrong with it. -/
def Keeps (type : TypeExpr TypeId) (value : Value) (coercion : Coercion m) : Prop :=
  ∀ path, ∃ notices, (∀ issue ∈ notices, issue.IsNotice) ∧
    coercion type path = pure ⟨.ok value, notices⟩

omit [Monad m] [LawfulMonad m] in
theorem deprecationIssues_isNotice {field : Argument} {path : Bytes} :
    ∀ issue ∈ deprecationIssues schema field path location, issue.IsNotice := by
  unfold deprecationIssues
  cases field.deprecation with
  | none => simp
  | some deprecation =>
    intro issue hissue
    rw [List.mem_singleton.1 hissue]
    exact ⟨deprecation, rfl⟩

/-- Items that are kept one by one are kept together. -/
theorem valueItems_keeps {element : TypeExpr TypeId} {items : List Value}
    {coercions : List (Coercion m)} (h : List.Forall₂ (Keeps element) items coercions)
    (path : Bytes) (index : Nat) : ∃ notices, (∀ issue ∈ notices, issue.IsNotice) ∧
      valueItems element path index coercions = pure (some items, notices) := by
  induction h generalizing index with
  | nil => exact ⟨[], by simp, rfl⟩
  | cons hitem _ ih =>
    obtain ⟨first, hfirst, hcoerced⟩ := hitem (partPath path (decimal index))
    obtain ⟨rest, hrest, hothers⟩ := ih (index + 1)
    refine ⟨first ++ rest, List.forall_mem_append.2 ⟨hfirst, hrest⟩, ?_⟩
    rw [valueItems, hcoerced, pure_bind, hothers, pure_bind]

variable [MonadAttach m]

/-- A scalar that conforms is kept. -/
theorem keeps_scalar (hscalars : schema.ScalarsIdempotent) {value : Value}
    (hleaf : value.isLeaf = true) {type : TypeExpr TypeId}
    (h : Conforms schema.inputBody? type value) :
    Keeps type value (scalar schema location value) := by
  intro path
  induction type using TypeExpr.reading with
  | named id =>
    cases h with
    | null => cases hleaf
    | object => cases hleaf
    | scalar htype hgives =>
      obtain ⟨coerce, hbody, hidempotent, rfl⟩ := hscalars.of_inputBody? htype
      refine ⟨[], by simp, ?_⟩
      simp [scalar, single, TypeExpr.leaf, atBody, hbody, hidempotent.again value hgives,
        Coerced.ok]
  | nonNull inner ih =>
    rw [scalar, single_nonNull]
    exact ih h.of_nonNull
  | list element ih =>
    cases h with
    | null => cases hleaf
    | list => cases hleaf

/-- A list that conforms is kept if its items are. -/
theorem keeps_list (hscalars : schema.ScalarsIdempotent) {items : List Value}
    {coercions : List (Coercion m)} (hitems : ∀ element,
      (∀ item ∈ items, Conforms schema.inputBody? element item) →
      List.Forall₂ (Keeps element) items coercions)
    {type : TypeExpr TypeId} (h : Conforms schema.inputBody? type (.list items)) :
    Keeps type (.list items) (valueList schema location coercions) := by
  intro path
  induction type using TypeExpr.reading with
  | named id =>
    cases h with
    | scalar htype hgives =>
      obtain ⟨coerce, hbody, hidempotent, rfl⟩ := hscalars.of_inputBody? htype
      cases hidempotent.leaf _ hgives
  | nonNull inner ih =>
    rw [valueList_nonNull]
    exact ih h.of_nonNull
  | list element ih =>
    cases h with
    | list hconform =>
      obtain ⟨notices, hnotices, hcoerced⟩ := valueItems_keeps (hitems element hconform) path 0
      refine ⟨notices, hnotices, ?_⟩
      simp only [valueList, TypeExpr.nullable, hcoerced, pure_bind]

omit [MonadAttach m] in
/-- The declared fields of an object that conforms are kept. The members left
for the fields are a part of all members, among which each field finds its own. -/
theorem valueFields_keeps {types : TypeId → Option InputBody} {members : Members}
    (path : Bytes) {declared : List Argument} {rest : Members}
    (h : MembersConform types declared rest) (hnames : (declared.map (·.name)).Nodup)
    (hrest : ∀ field ∈ declared, members.lookup field.name = rest.lookup field.name)
    (hkeeps : ∀ member ∈ members, ∀ type, Conforms types type member.2 →
      Keeps type member.2 (member.2.coerce schema location)) :
    ∃ notices, (∀ issue ∈ notices, issue.IsNotice) ∧
      valueFields schema location (Value.coerceMembers schema location members) path declared =
        pure (some rest, notices) := by
  induction declared generalizing rest with
  | nil =>
    cases h
    exact ⟨[], by simp, rfl⟩
  | cons field declared ih =>
    obtain ⟨hname, hnames⟩ := List.nodup_cons.1 hnames
    obtain ⟨hfound, hrest⟩ := List.forall_mem_cons.1 hrest
    cases h with
    | @present _ _ value later hvalue hlater =>
      have hlookup : members.lookup field.name = some value := by
        rw [hfound, List.lookup_cons_self]
      obtain ⟨first, hfirst, hcoerced⟩ :=
        hkeeps _ (mem_of_lookup hlookup) field.type hvalue (partPath path field.name)
      have hskip : ∀ other ∈ declared, members.lookup other.name = later.lookup other.name := by
        intro other hother
        have hne : other.name ≠ field.name := fun heq =>
          hname (List.mem_map.2 ⟨other, hother, heq⟩)
        rw [hrest other hother, List.lookup_cons, beq_eq_false_iff_ne.2 hne]
      obtain ⟨notices, hnotices, hothers⟩ := ih hlater hnames hskip
      refine ⟨deprecationIssues schema field (partPath path field.name) location ++ first
        ++ notices, ?_, ?_⟩
      · simp only [List.forall_mem_append]
        exact ⟨⟨deprecationIssues_isNotice, hfirst⟩, hnotices⟩
      · rw [valueFields, valueField, Value.lookup_coerceMembers, hlookup, Option.map_some]
        simp only [hcoerced, hothers, pure_bind]
    | absent hnull hdefault hlater =>
      have hnone : rest.lookup field.name = none :=
        lookup_eq_none_of_keys fun hkey => hname (hlater.keys_sublist.subset hkey)
      obtain ⟨notices, hnotices, hothers⟩ := ih hlater hnames hrest
      refine ⟨notices, hnotices, ?_⟩
      have hrequired : field.required = false := by
        rw [Argument.required, hnull, Bool.false_and]
      rw [valueFields, valueField, Value.lookup_coerceMembers, hfound, hnone, Option.map_none]
      simp [missingField, hdefault, hrequired, hothers, Coerced.absent]

/-- An object that conforms is kept if its members are. -/
theorem keeps_object (hscalars : schema.ScalarsIdempotent) (hnames : schema.DistinctFields)
    {members : Members} (hkeeps : ∀ member ∈ members, ∀ type,
      Conforms schema.inputBody? type member.2 →
      Keeps type member.2 (member.2.coerce schema location))
    {type : TypeExpr TypeId} (h : Conforms schema.inputBody? type (.object members)) :
    Keeps type (.object members)
      (valueObject schema location (Value.coerceMembers schema location members)) := by
  intro path
  induction type using TypeExpr.reading with
  | named id =>
    cases h with
    | scalar htype hgives =>
      obtain ⟨coerce, hbody, hidempotent, rfl⟩ := hscalars.of_inputBody? htype
      cases hidempotent.leaf _ hgives
    | @object _ declared _ htype hmembers =>
      have hbody := Schema.body?_of_inputBody? htype
      obtain ⟨notices, hnotices, hcoerced⟩ :=
        valueFields_keeps path hmembers (hnames id declared hbody) (fun _ _ => rfl) hkeeps
      have hunknown : unknownMembers (schema.inputField? id) location path
          (Value.coerceMembers schema location members) = [] := by
        rw [unknownMembers, List.map_eq_nil_iff, List.filter_eq_nil_iff]
        intro member hmember
        rw [Schema.isNone_inputField? hbody]
        have hkey : member.1 ∈ declared.map (·.name) :=
          hmembers.keys_sublist.subset
            (Value.keys_coerceMembers schema location members ▸ List.mem_map_of_mem hmember)
        obtain ⟨field, hfield, hname⟩ := List.mem_map.1 hkey
        simpa using ⟨field, hfield, hname⟩
      refine ⟨notices, hnotices, ?_⟩
      simp only [valueObject, single, TypeExpr.leaf, atBody, hbody, valueObjectAt, hcoerced,
        pure_bind, hunknown, List.nil_append]
  | nonNull inner ih =>
    rw [valueObject, single_nonNull]
    exact ih h.of_nonNull
  | list element ih => cases h

end Coercion

/-! ## §3 Conformance -/

namespace Value

variable [MonadAttach m] {schema : Schema m}

omit [LawfulMonad m] in
mutual

/-- A value that conforms is kept. -/
theorem coerce_keeps [LawfulMonad m] (hscalars : schema.ScalarsIdempotent)
    (hnames : schema.DistinctFields) (location : Option Location) :
    ∀ (value : Value) {type : TypeExpr TypeId},
    Conforms schema.inputBody? type value →
    Coercion.Keeps type value (value.coerce schema location)
  | .null, type, h => by
    intro path
    refine ⟨[], by simp, ?_⟩
    have htype : type.isNonNull = false := by
      cases hnonNull : type.isNonNull with
      | false => rfl
      | true => exact absurd rfl (h.ne_null hnonNull)
    simp [coerce, Coercion.null, htype, Coerced.ok]
  | .list items, type, h =>
    Coercion.keeps_list hscalars
      (fun element hitems => coerceItems_keep hscalars hnames location items hitems) h
  | .object members, _, h =>
    Coercion.keeps_object hscalars hnames (fun member hmember _ hconforms =>
      coerceMembers_keep hscalars hnames location members member hmember hconforms) h
  | .bool _, _, h | .int _, _, h | .uint _, _, h | .float _, _, h | .string _, _, h =>
    Coercion.keeps_scalar hscalars rfl h

/-- So are the items of a list. -/
theorem coerceItems_keep [LawfulMonad m] (hscalars : schema.ScalarsIdempotent)
    (hnames : schema.DistinctFields) (location : Option Location) :
    ∀ (items : List Value) {element : TypeExpr TypeId},
    (∀ item ∈ items, Conforms schema.inputBody? element item) →
    List.Forall₂ (Coercion.Keeps element) items (coerceItems schema location items)
  | [], _, _ => .nil
  | item :: rest, _, h =>
    have ⟨hitem, hrest⟩ := List.forall_mem_cons.1 h
    .cons (coerce_keeps hscalars hnames location item hitem)
      (coerceItems_keep hscalars hnames location rest hrest)

/-- So are the members of an object. -/
theorem coerceMembers_keep [LawfulMonad m] (hscalars : schema.ScalarsIdempotent)
    (hnames : schema.DistinctFields) (location : Option Location) :
    ∀ (members : List (Bytes × Value)), ∀ member ∈ members,
    ∀ {type : TypeExpr TypeId}, Conforms schema.inputBody? type member.2 →
    Coercion.Keeps type member.2 (member.2.coerce schema location)
  | [], _, hmember, _, _ => by cases hmember
  | (key, value) :: rest, member, hmember, type, h => by
    rcases List.mem_cons.1 hmember with rfl | hrest
    · exact coerce_keeps hscalars hnames location value h
    · exact coerceMembers_keep hscalars hnames location rest member hrest h

end

end Value

section

variable [MonadAttach m] {schema : Schema m}

omit [LawfulMonad m]

/-- The keys of an object's result are declared, in the order of their declarations. -/
theorem MembersCoerce.keys_sublist {declared : List Argument} {members results : Members}
    (h : MembersCoerce schema members declared results) :
    (results.map (·.1)).Sublist (declared.map (·.name)) := by
  match h with
  | .nil => exact .slnil
  | .given _ _ hrest => exact hrest.keys_sublist.cons_cons _
  | .completed _ _ hrest => exact hrest.keys_sublist.cons_cons _
  | .absent _ _ _ hrest => exact hrest.keys_sublist.cons _
termination_by structural h

mutual

/-- A value that is coerced to itself conforms. -/
theorem Coerces.conforms_of_eq (hnames : schema.DistinctFields) {type : TypeExpr TypeId}
    {value result : Value} (h : Coerces schema type value result) (heq : value = result) :
    Conforms schema.inputBody? type value := by
  match h with
  | .null htype => exact .null htype
  | .nonNull hne hinner => exact .nonNull hne (hinner.conforms_of_eq hnames heq)
  | .list hitems => exact .list (hitems.conform_of_eq hnames (Value.list.inj heq))
  | .single _ hlist _ =>
    rw [heq] at hlist
    cases hlist
  | .scalar hbody _ hgives =>
    subst heq
    exact .scalar (Schema.inputBody?_scalar hbody) ⟨_, hgives⟩
  | .object hbody hmembers =>
    have heq := Value.object.inj heq
    have hkeys := hmembers.keys_sublist.nodup (hnames _ _ hbody)
    refine .object (Schema.inputBody?_inputObject hbody) ?_
    rw [heq]
    refine hmembers.conform_of_lookup hnames fun member hmember => ?_
    rw [heq]
    exact lookup_of_mem hkeys hmember
termination_by structural h

/-- So do the items of a list that are coerced to themselves. -/
theorem ItemsCoerce.conform_of_eq (hnames : schema.DistinctFields) {element : TypeExpr TypeId}
    {items results : List Value} (h : ItemsCoerce schema element items results)
    (heq : items = results) : ∀ item ∈ items, Conforms schema.inputBody? element item := by
  match h with
  | .nil => simp
  | .cons hitem hitems =>
    obtain ⟨hfirst, hrest⟩ := List.cons.inj heq
    exact List.forall_mem_cons.2
      ⟨hitem.conforms_of_eq hnames hfirst, hitems.conform_of_eq hnames hrest⟩
termination_by structural h

/-- So do members that are found in the object that they are coerced from. -/
theorem MembersCoerce.conform_of_lookup (hnames : schema.DistinctFields)
    {declared : List Argument} {members results : Members}
    (h : MembersCoerce schema members declared results)
    (hfound : ∀ member ∈ results, members.lookup member.1 = some member.2) :
    MembersConform schema.inputBody? declared results := by
  match h with
  | .nil => exact .nil
  | .given hvalue hresult hrest =>
    obtain ⟨hfirst, hfound⟩ := List.forall_mem_cons.1 hfound
    have heq := Option.some.inj (hvalue.symm.trans hfirst)
    have hconforms := hresult.conforms_of_eq hnames heq
    rw [heq] at hconforms
    exact .present hconforms (hrest.conform_of_lookup hnames hfound)
  | .completed hnone _ _ =>
    obtain ⟨hfirst, _⟩ := List.forall_mem_cons.1 hfound
    rw [hnone] at hfirst
    cases hfirst
  | .absent _ hdefault htype hrest =>
    exact .absent htype hdefault (hrest.conform_of_lookup hnames hfound)
termination_by structural h

end

/-- An object at an input object type is coerced member by member. -/
theorem Coerces.members {id : TypeId} {declared : List Argument} {members : Members}
    {result : Value} (h : Coerces schema (.named id) (.object members) result)
    (hbody : schema.body? id = some (.inputObject declared)) :
    ∃ results, result = .object results ∧ MembersCoerce schema members declared results := by
  cases h with
  | scalar _ hleaf _ => cases hleaf
  | object hfound hmembers =>
    rw [hbody] at hfound
    cases hfound
    exact ⟨_, rfl, hmembers⟩

/-- What an object is completed with is among the members of its result. -/
theorem MembersCoerce.mem_of_lookup_eq_none {declared : List Argument} {members results : Members}
    (h : MembersCoerce schema members declared results) {field : Argument} {default : Value}
    (hfield : field ∈ declared) (hnone : members.lookup field.name = none)
    (hdefault : field.default = some default) : (field.name, default) ∈ results := by
  match h with
  | .nil => cases hfield
  | .given hvalue _ hrest =>
    rcases List.mem_cons.1 hfield with rfl | hfield
    · rw [hnone] at hvalue
      cases hvalue
    · exact List.mem_cons_of_mem _ (hrest.mem_of_lookup_eq_none hfield hnone hdefault)
  | .completed _ hgiven hrest =>
    rcases List.mem_cons.1 hfield with rfl | hfield
    · rw [hdefault] at hgiven
      cases hgiven
      exact List.mem_cons_self
    · exact List.mem_cons_of_mem _ (hrest.mem_of_lookup_eq_none hfield hnone hdefault)
  | .absent _ hgiven _ hrest =>
    rcases List.mem_cons.1 hfield with rfl | hfield
    · rw [hdefault] at hgiven
      cases hgiven
    · exact hrest.mem_of_lookup_eq_none hfield hnone hdefault
termination_by structural h

/-- So is the result of every declared member. -/
theorem MembersCoerce.exists_of_lookup {declared : List Argument} {members results : Members}
    (h : MembersCoerce schema members declared results) {field : Argument} {value : Value}
    (hfield : field ∈ declared) (hvalue : members.lookup field.name = some value) :
    ∃ result, Coerces schema field.type value result ∧ (field.name, result) ∈ results := by
  match h with
  | .nil => cases hfield
  | .given hgiven hresult hrest =>
    rcases List.mem_cons.1 hfield with rfl | hfield
    · rw [hvalue] at hgiven
      cases hgiven
      exact ⟨_, hresult, List.mem_cons_self⟩
    · obtain ⟨result, hcoerces, hmem⟩ := hrest.exists_of_lookup hfield hvalue
      exact ⟨result, hcoerces, List.mem_cons_of_mem _ hmem⟩
  | .completed hnone _ hrest =>
    rcases List.mem_cons.1 hfield with rfl | hfield
    · rw [hvalue] at hnone
      cases hnone
    · obtain ⟨result, hcoerces, hmem⟩ := hrest.exists_of_lookup hfield hvalue
      exact ⟨result, hcoerces, List.mem_cons_of_mem _ hmem⟩
  | .absent hnone _ _ hrest =>
    rcases List.mem_cons.1 hfield with rfl | hfield
    · rw [hvalue] at hnone
      cases hnone
    · exact hrest.exists_of_lookup hfield hvalue
termination_by structural h

/-- A list's items have their results in the list's result. -/
theorem ItemsCoerce.exists_of_mem {element : TypeExpr TypeId} {items results : List Value}
    (h : ItemsCoerce schema element items results) {item : Value} (hitem : item ∈ items) :
    ∃ result ∈ results, Coerces schema element item result := by
  match h with
  | .nil => cases hitem
  | .cons hfirst hrest =>
    rcases List.mem_cons.1 hitem with rfl | hitem
    · exact ⟨_, List.mem_cons_self, hfirst⟩
    · obtain ⟨result, hresult, hcoerces⟩ := hrest.exists_of_mem hitem
      exact ⟨result, List.mem_cons_of_mem _ hresult, hcoerces⟩
termination_by structural h

/-- Where names differ, a member conforms to the field of its name. -/
theorem MembersConform.conforms_of_field {types : TypeId → Option InputBody}
    {declared : List Argument} {members : Members} (h : MembersConform types declared members)
    (hnames : (declared.map (·.name)).Nodup) {field : Argument} {value : Value}
    (hfield : field ∈ declared) (hmem : (field.name, value) ∈ members) :
    Conforms types field.type value := by
  obtain ⟨other, hother, hname, hconforms⟩ := h.conforms_of_mem hmem
  rwa [List.inj_on_of_nodup_map hnames hother hfield hname] at hconforms

/-- Null is not completed. -/
theorem Completes.ne_null {types : TypeId → Option InputBody} {type : TypeExpr TypeId}
    {value : Value} {owner : TypeId} {index : Nat} (h : Completes types type value owner index) :
    value ≠ .null := by
  induction h with
  | nonNull _ ih => exact ih
  | single _ _ ih => exact ih
  | item => simp
  | here => simp
  | member => simp

/-- A default that completes a value conforms if the result does. -/
theorem Completes.defaultConformsAt (hnames : schema.DistinctFields) {type : TypeExpr TypeId}
    {value result : Value} {owner : TypeId} {index : Nat}
    (h : Completes schema.inputBody? type value owner index)
    (hcoerces : Coerces schema type value result)
    (hconforms : Conforms schema.inputBody? type result) :
    DefaultConformsAt schema.inputBody? owner index := by
  induction h generalizing result with
  | nonNull _ ih =>
    cases hcoerces with
    | null htype => cases htype
    | nonNull _ hinner => exact ih hinner hconforms.of_nonNull
  | item hitem _ ih =>
    cases hcoerces with
    | single _ hlist _ => cases hlist
    | list hitems =>
      cases hconforms with
      | list hresults =>
        obtain ⟨result, hresult, hitem⟩ := hitems.exists_of_mem hitem
        exact ih hitem (hresults result hresult)
  | single hlist hcompletes ih =>
    cases hcoerces with
    | null _ => exact absurd rfl hcompletes.ne_null
    | list _ => cases hlist
    | single _ _ hvalue =>
      cases hconforms with
      | list hresults => exact ih hvalue (hresults _ (List.mem_singleton_self _))
  | here htype hindex hnone hdefault =>
    have hbody := Schema.body?_of_inputBody? htype
    obtain ⟨results, rfl, hmembers⟩ := hcoerces.members hbody
    have hfield := List.mem_of_getElem? hindex
    intro field hfound default hgiven
    rw [declaredAt?_of_inputObject htype, hindex] at hfound
    cases hfound
    rw [hdefault] at hgiven
    cases hgiven
    exact (hconforms.members htype).conforms_of_field (hnames _ _ hbody) hfield
      (hmembers.mem_of_lookup_eq_none hfield hnone hdefault)
  | member htype hfield hvalue _ ih =>
    have hbody := Schema.body?_of_inputBody? htype
    obtain ⟨results, rfl, hmembers⟩ := hcoerces.members hbody
    obtain ⟨result, hresult, hmem⟩ := hmembers.exists_of_lookup hfield hvalue
    exact ih hresult
      ((hconforms.members htype).conforms_of_field (hnames _ _ hbody) hfield hmem)

end

/-! ## §4 Idempotence -/

section

variable [MonadAttach m] [LawfulMonadAttach m] {schema : Schema m}

/-- Defaults that are coerced to themselves conform. -/
theorem Schema.InputDefaultsKept.conform (hnames : schema.DistinctFields)
    (h : schema.InputDefaultsKept) (owner : TypeId) (index : Nat) :
    DefaultConformsAt schema.inputBody? owner index := by
  intro field hfield default hdefault
  obtain ⟨declared, htype, hfield⟩ := exists_of_declaredAt? hfield
  obtain ⟨location, path, issues, hcan⟩ := h owner declared (body?_of_inputBody? htype) field
    (List.mem_of_getElem? hfield) default hdefault
  exact (Value.coerces_of_canReturn hcan).conforms_of_eq hnames rfl

omit [LawfulMonadAttach m] in
/-- A value that conforms comes back from its type, and from the type that admits
null as well. No type is marked twice in a row. -/
theorem Conforms.coerce_eq (hscalars : schema.ScalarsIdempotent) (hnames : schema.DistinctFields)
    {type : TypeExpr TypeId} {value : Value} (h : Conforms schema.inputBody? type value)
    (location : Option Location) (path : Bytes) :
    ∃ notices, (∀ issue ∈ notices, issue.IsNotice) ∧
      value.coerce schema location type path = pure ⟨.ok value, notices⟩ ∧
      (type.nullable.isNonNull = false →
        value.coerce schema location type.nullable path = pure ⟨.ok value, notices⟩) := by
  obtain ⟨notices, hnotices, hkept⟩ := Value.coerce_keeps hscalars hnames location value h path
  refine ⟨notices, hnotices, hkept, fun hnullable => ?_⟩
  cases type with
  | named id => exact hkept
  | list element => exact hkept
  | nonNull inner =>
    -- Only null is told apart by the marker, and null does not conform here.
    rwa [Value.coerce_nonNull (h.ne_null rfl), inner.unmarked_eq hnullable] at hkept

/-- A value that coercion gives conforms, if scalars keep what they give and defaults of input
fields are coerced to themselves. -/
theorem Value.conforms_of_coerce (hscalars : schema.ScalarsIdempotent)
    (hnames : schema.DistinctFields) (hdefaults : schema.InputDefaultsKept)
    {value result : Value} {type : TypeExpr TypeId} {location : Option Location} {path : Bytes}
    {issues : List Issue}
    (h : CanReturn (value.coerce schema location type path) ⟨.ok result, issues⟩) :
    Conforms schema.inputBody? type result :=
  (coerces_of_canReturn h).conforms hscalars.nullFree fun owner index _ =>
    hdefaults.conform hnames owner index

/-- Coercion is idempotent. Where scalars keep what they give and the defaults of
input fields are coerced to themselves, a value that coercion gives is coerced
to exactly itself, at its type and at the type without the outer non-null
marker, under which there is no other, with no issue but notices about deprecated fields. -/
theorem Value.coerce_idempotent (hscalars : schema.ScalarsIdempotent)
    (hnames : schema.DistinctFields) (hdefaults : schema.InputDefaultsKept)
    {value result : Value} {type : TypeExpr TypeId} {location : Option Location} {path : Bytes}
    {issues : List Issue}
    (h : CanReturn (value.coerce schema location type path) ⟨.ok result, issues⟩)
    (location' : Option Location) (path' : Bytes) :
    ∃ notices, (∀ issue ∈ notices, issue.IsNotice) ∧
      result.coerce schema location' type path' = pure ⟨.ok result, notices⟩ ∧
      (type.nullable.isNonNull = false →
        result.coerce schema location' type.nullable path' = pure ⟨.ok result, notices⟩) :=
  (conforms_of_coerce hscalars hnames hdefaults h).coerce_eq hscalars hnames location' path'

end

/-- A schema with an input type for ranges, one of whose fields is deprecated. -/
def Schema.ranging : Schema Id where
  types := Build.builtInTypes ++ [
    .of (utf8 "Range") [] (.inputObject [
      ⟨utf8 "low", .nonNull (.named 1), none, none, []⟩,
      ⟨utf8 "high", .named 1, some (.int 9), none, []⟩,
      ⟨utf8 "labels", .list (.named 0), none, some ⟨none⟩, []⟩])]
  query := 5
  mutation := none

namespace Schema

theorem scalarsIdempotent_ranging : ranging.ScalarsIdempotent := by
  intro id coerce hbody
  obtain ⟨type, htype, hscalar⟩ := exists_of_body? hbody
  rcases List.mem_append.1 htype with hbuiltIn | hrange
  · exact Build.idempotent_of_builtInTypes hbuiltIn hscalar
  · cases List.mem_singleton.1 hrange
    cases hscalar

theorem distinctFields_ranging : ranging.DistinctFields := by
  intro id declared hbody
  obtain ⟨type, htype, hdeclared⟩ := exists_of_body? hbody
  rcases List.mem_append.1 htype with hbuiltIn | hrange
  · obtain ⟨scalar, _, rfl⟩ := List.mem_map.1 hbuiltIn
    cases hdeclared
  · cases List.mem_singleton.1 hrange
    cases hdeclared
    decide

theorem inputDefaultsKept_ranging : ranging.InputDefaultsKept := by
  intro id declared hbody
  obtain ⟨type, htype, hdeclared⟩ := exists_of_body? hbody
  rcases List.mem_append.1 htype with hbuiltIn | hrange
  · obtain ⟨scalar, _, rfl⟩ := List.mem_map.1 hbuiltIn
    cases hdeclared
  · cases List.mem_singleton.1 hrange
    cases hdeclared
    intro field hfield default hdefault
    simp only [List.mem_cons, List.not_mem_nil, or_false] at hfield
    rcases hfield with rfl | rfl | rfl
    · cases hdefault
    · cases hdefault
      exact ⟨none, [], [], rfl⟩
    · cases hdefault

end Schema

/-- A range with a text for an integer, a single value for a list, a missing field and an
unknown one. -/
theorem Value.coerce_range :
    ((Value.object [(utf8 "labels", .string (utf8 "a")), (utf8 "more", .null),
      (utf8 "low", .string (utf8 "7"))]).coerce Schema.ranging none (.nonNull (.named 5)) []).run =
      .ok ⟨.ok (.object [(utf8 "low", .int 7), (utf8 "high", .int 9),
        (utf8 "labels", .list [.string (utf8 "a")])]),
        [⟨.unknown, utf8 "more", [], none⟩,
          ⟨.deprecated ⟨none⟩, utf8 "labels", utf8 "[String]", none⟩]⟩ := by
  decide +kernel

theorem Value.coerce_range_again :
    ((Value.object [(utf8 "low", .int 7), (utf8 "high", .int 9),
      (utf8 "labels", .list [.string (utf8 "a")])]).coerce Schema.ranging none
      (.nonNull (.named 5)) []).run =
      .ok ⟨.ok (.object [(utf8 "low", .int 7), (utf8 "high", .int 9),
        (utf8 "labels", .list [.string (utf8 "a")])]),
        [⟨.deprecated ⟨none⟩, utf8 "labels", utf8 "[String]", none⟩]⟩ := by
  decide +kernel

/-- All of it is settled by the first coercion; the second one changes nothing. -/
theorem Value.coerce_idempotent_range :
    let given := Value.object [(utf8 "labels", .string (utf8 "a")), (utf8 "more", .null),
      (utf8 "low", .string (utf8 "7"))]
    let result := Value.object [(utf8 "low", .int 7), (utf8 "high", .int 9),
      (utf8 "labels", .list [.string (utf8 "a")])]
    let type : TypeExpr TypeId := .nonNull (.named 5)
    let unknown : Issue := ⟨.unknown, utf8 "more", [], none⟩
    let notice : Issue := ⟨.deprecated ⟨none⟩, utf8 "labels", utf8 "[String]", none⟩
    (Schema.ranging.ScalarsIdempotent ∧ Schema.ranging.DistinctFields ∧
      Schema.ranging.InputDefaultsKept) ∧
    (given.coerce Schema.ranging none type []).run = .ok ⟨.ok result, [unknown, notice]⟩ ∧
    (result.coerce Schema.ranging none type []).run = .ok ⟨.ok result, [notice]⟩ ∧
    ∃ notices, (∀ issue ∈ notices, issue.IsNotice) ∧
      result.coerce Schema.ranging none type [] = pure ⟨.ok result, notices⟩ ∧
      result.coerce Schema.ranging none type.nullable [] = pure ⟨.ok result, notices⟩ := by
  refine ⟨⟨Schema.scalarsIdempotent_ranging, Schema.distinctFields_ranging,
    Schema.inputDefaultsKept_ranging⟩, coerce_range, coerce_range_again, ?_⟩
  obtain ⟨notices, hnotices, htype, hnullable⟩ :=
    coerce_idempotent Schema.scalarsIdempotent_ranging Schema.distinctFields_ranging
      Schema.inputDefaultsKept_ranging coerce_range none []
  exact ⟨notices, hnotices, htype, hnullable rfl⟩

end GraphQL
