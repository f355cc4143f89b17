/-
GraphQL.Proofs.Input.Agreement — coercions that agree up to places and notices.

  §1 Issues   — lists of issues that agree.
  §2 Results  — coerced input that agrees.
  §3 Parts    — null, scalars, and the items of lists.
  §4 Objects  — the fields of objects, some of them left out.

Two pieces of input may differ in where their parts were given. The first may
also have object fields that refer to variables without value. Such a field
is treated as a missing one, except that it is noticed if it is not declared
or deprecated.
-/
import GraphQL.Proofs.Input.Tree

namespace GraphQL

/-! ## §1 Issues -/

/-- The issue, its place forgotten. -/
def Issue.unlocated (issue : Issue) : Issue := { issue with location := none }

/-- The first issues are the second ones up to places. Among them there may be
notices about object fields, given by path and place, that are `omitted`. -/
inductive IssuesAgree (omitted : List (Bytes × Location)) : List Issue → List Issue → Prop
  | nil : IssuesAgree omitted [] []
  | cons {issue other : Issue} {issues others : List Issue} :
    issue.unlocated = other.unlocated → IssuesAgree omitted issues others →
    IssuesAgree omitted (issue :: issues) (other :: others)
  | notice {issue : Issue} {location : Location} {issues others : List Issue} :
    issue.failing = false → issue.location = some location →
    (issue.path, location) ∈ omitted → IssuesAgree omitted issues others →
    IssuesAgree omitted (issue :: issues) others

namespace IssuesAgree

variable {omitted : List (Bytes × Location)} {issues others more rest : List Issue}

theorem refl : ∀ issues : List Issue, IssuesAgree omitted issues issues
  | [] => .nil
  | _ :: rest => .cons rfl (refl rest)

theorem append (h : IssuesAgree omitted issues others) (hmore : IssuesAgree omitted more rest) :
    IssuesAgree omitted (issues ++ more) (others ++ rest) := by
  induction h with
  | nil => exact hmore
  | cons heq _ ih => exact .cons heq ih
  | notice hfailing hplace hmem _ ih => exact .notice hfailing hplace hmem ih

/-- Where nothing is omitted, the issues are the same but for their places. -/
theorem map_unlocated (h : IssuesAgree [] issues others) :
    issues.map Issue.unlocated = others.map Issue.unlocated := by
  induction h with
  | nil => rfl
  | cons heq _ ih => rw [List.map_cons, List.map_cons, heq, ih]
  | notice _ _ hmem _ _ => simp at hmem

end IssuesAgree

/-! ## §2 Results -/

/-- The same outcome, with issues that agree. -/
structure Coerced.AgreesBut (omitted : List (Bytes × Location)) (coerced other : Coerced) :
    Prop where
  outcome : coerced.outcome = other.outcome
  issues : IssuesAgree omitted coerced.issues other.issues

/-- The result, the places of its issues forgotten. -/
def Coerced.unlocated (coerced : Coerced) : Coerced :=
  ⟨coerced.outcome, coerced.issues.map Issue.unlocated⟩

/-- Results that agree, with a value or a failure. -/
def Coerced.SettlesBut (omitted : List (Bytes × Location)) (coerced other : Coerced) : Prop :=
  coerced.AgreesBut omitted other ∧ coerced.outcome ≠ .absent

/-- Parts of the input that agree in what they give so far. -/
def PartsAgree {α : Type} (omitted : List (Bytes × Location))
    (parts others : Option α × List Issue) : Prop :=
  parts.1 = others.1 ∧ IssuesAgree omitted parts.2 others.2

namespace Coerced

variable {omitted : List (Bytes × Location)} {coerced other : Coerced}

/-- Where nothing is omitted, the results are the same but for places. -/
theorem AgreesBut.unlocated_eq (h : coerced.AgreesBut [] other) :
    coerced.unlocated = other.unlocated := by
  unfold unlocated
  rw [h.outcome, h.issues.map_unlocated]

theorem AgreesBut.with_issues {notices others : List Issue} (h : coerced.AgreesBut omitted other)
    (hissues : IssuesAgree omitted notices others) :
    AgreesBut omitted { coerced with issues := notices ++ coerced.issues }
      { other with issues := others ++ other.issues } :=
  ⟨h.outcome, hissues.append h.issues⟩

namespace SettlesBut

theorem ok {value : Value} {issues others : List Issue} (h : IssuesAgree omitted issues others) :
    SettlesBut omitted ⟨.ok value, issues⟩ ⟨.ok value, others⟩ := ⟨⟨rfl, h⟩, by simp⟩

theorem failed {issues others : List Issue} (h : IssuesAgree omitted issues others) :
    SettlesBut omitted ⟨.failed, issues⟩ ⟨.failed, others⟩ := ⟨⟨rfl, h⟩, by simp⟩

theorem refl (h : coerced.outcome ≠ .absent) : SettlesBut omitted coerced coerced :=
  ⟨⟨rfl, .refl _⟩, h⟩

theorem map {f : Value → Value} (h : SettlesBut omitted coerced other) :
    SettlesBut omitted (coerced.map f) (other.map f) := by
  obtain ⟨outcome, issues⟩ := coerced
  obtain ⟨_, others⟩ := other
  obtain ⟨⟨rfl, hissues⟩, habsent⟩ := h
  cases outcome with
  | absent => exact absurd rfl habsent
  | ok value => exact .ok hissues
  | failed => exact .failed hissues

end SettlesBut

end Coerced

/-! ## §3 Parts -/

variable {m : Type → Type} [Monad m] [LawfulMonad m]

namespace Coercion

variable {schema : Schema m} {omitted : List (Bytes × Location)} {path : Bytes}
  {location location' : Option Location}

/-- Coercions under a path that settle alike at every type. -/
def SettlesBut (omitted : List (Bytes × Location)) (path : Bytes) (coercion other : Coercion m) :
    Prop :=
  ∀ type, InStep (Coerced.SettlesBut omitted) (coercion type path) (other type path)

omit [Monad m] [LawfulMonad m] in
theorem invalid_settlesBut {type : TypeExpr TypeId} :
    Coerced.SettlesBut omitted (invalid schema location type path)
      (invalid schema location' type path) :=
  .failed (.cons rfl .nil)

theorem null_settlesBut : SettlesBut omitted path (null schema location) (null schema location') :=
  fun type => by
    unfold null
    split
    · exact .pure invalid_settlesBut
    · exact .pure (.ok .nil)

theorem scalar_settlesBut {value : Value} :
    SettlesBut omitted path (scalar schema location value) (scalar schema location' value) := by
  refine single_inStep (fun id => atBody_inStep fun body => ?_) fun a b f => .map
  cases body with
  | inputObject _ => exact .pure invalid_settlesBut
  | object _ => exact .throw _
  | scalar coerce =>
    refine InStep.bind (.refl (fun _ => rfl) (coerce value)) fun a b hab => ?_
    subst hab
    cases a with
    | none => exact .pure invalid_settlesBut
    | some result => exact .pure (.ok .nil)

/-- A coercion in a list, where what has no value reads as null. -/
def orNull (schema : Schema m) (location : Option Location) (item : Coercion m) : Coercion m :=
  fun type path => do
    let coerced ← item type path
    match coerced.outcome with
    | .absent => null schema location type path
    | _ => pure coerced

theorem listItems_cons {element : TypeExpr TypeId} {index : Nat}
    {item : Option Location × Coercion m} {rest : List (Option Location × Coercion m)} :
    listItems schema element path index (item :: rest) = do
      let coerced ← orNull schema item.1 item.2 element (partPath path (decimal index))
      let (values, issues) ← listItems schema element path (index + 1) rest
      return (match coerced.outcome, values with
        | .ok value, some values => some (value :: values)
        | _, _ => none, coerced.issues ++ issues) := by
  obtain ⟨location, item⟩ := item
  rw [listItems, orNull, bind_assoc]
  refine bind_congr fun coerced => ?_
  cases coerced.outcome <;> rfl

/-- What settles is not read as null. -/
theorem SettlesBut.orNull {item other : Coercion m} (h : item.SettlesBut omitted path other) :
    (item.orNull schema location).SettlesBut omitted path (other.orNull schema location') := by
  intro type
  refine (h type).bind fun a b hab => ?_
  have houtcome := hab.1.outcome
  cases ha : a.outcome with
  | absent => exact absurd ha hab.2
  | _ =>
    rw [← houtcome, ha]
    exact .pure hab

/-- What has no value and null itself are both read as null. -/
theorem orNull_absent_settlesBut :
    SettlesBut omitted path (orNull schema location fun _ _ => return .absent)
      (orNull schema location' (null schema location')) := by
  have habsent : orNull schema location (fun _ _ => return .absent) = null schema location := by
    funext type path
    exact pure_bind _ _
  -- Null settles, so that reading it as null changes nothing.
  have hnull : orNull schema location' (null schema location') = null schema location' := by
    funext type path
    have hself : InStep Coerced.SettlesAs (null schema location' type path)
        (null schema location' type path) := null_settles type path
    refine Eq.trans (hself.bind_eq fun a b hab => ?_) (bind_pure _)
    obtain ⟨rfl, hne⟩ := hab
    cases ha : a.outcome with
    | absent => exact absurd ha hne
    | _ => rfl
  rw [habsent, hnull]
  exact null_settlesBut

/-- Items of lists that settle alike under their paths, from a position on. -/
inductive ItemsAgree (schema : Schema m) (omitted : List (Bytes × Location)) (path : Bytes) :
    Nat → List (Option Location × Coercion m) → List (Option Location × Coercion m) → Prop
  | nil {index : Nat} : ItemsAgree schema omitted path index [] []
  | cons {index : Nat} {item other : Option Location × Coercion m}
      {rest others : List (Option Location × Coercion m)} :
    (item.2.orNull schema item.1).SettlesBut omitted (partPath path (decimal index))
      (other.2.orNull schema other.1) →
    ItemsAgree schema omitted path (index + 1) rest others →
    ItemsAgree schema omitted path index (item :: rest) (other :: others)

theorem ItemsAgree.listItems {index : Nat} {items others : List (Option Location × Coercion m)}
    (h : ItemsAgree schema omitted path index items others) (element : TypeExpr TypeId) :
    InStep (PartsAgree omitted) (listItems schema element path index items)
      (listItems schema element path index others) := by
  induction h with
  | nil => exact .pure ⟨rfl, .nil⟩
  | cons hitem _ ih =>
    rw [listItems_cons, listItems_cons]
    refine (hitem element).bind fun a b hab => ih.bind fun c d hcd => .pure ⟨?_, ?_⟩
    · rw [hab.1.outcome, hcd.1]
    · exact hab.1.issues.append hcd.2

theorem ItemsAgree.list {items others : List (Option Location × Coercion m)}
    (h : ItemsAgree schema omitted path 0 items others) :
    (list schema location items).SettlesBut omitted path (list schema location' others) := by
  intro type
  induction type using TypeExpr.reading with
  | named id => exact atBody_inStep fun _ => .pure invalid_settlesBut
  | nonNull inner ih =>
    rw [list_nonNull, list_nonNull]
    exact ih
  | list element ih =>
    refine (h.listItems element).bind fun a b hab => ?_
    obtain ⟨values, issues⟩ := a
    obtain ⟨_, others⟩ := b
    obtain ⟨rfl, hissues⟩ := hab
    cases values with
    | none => exact .pure (.failed hissues)
    | some values => exact .pure (.ok hissues)

/-! ## §4 Objects -/

/-- Fields of objects that settle alike under their paths. The first object may
have fields without value, which are omitted in the second one. -/
inductive FieldsAgree (omitted : List (Bytes × Location)) (path : Bytes) :
    Fields m → Fields m → Prop
  | nil : FieldsAgree omitted path [] []
  | cons {name : Bytes} {location location' : Option Location} {value other : Coercion m}
      {fields others : Fields m} :
    value.SettlesBut omitted (partPath path name) other → FieldsAgree omitted path fields others →
    FieldsAgree omitted path ((name, location, value) :: fields)
      ((name, location', other) :: others)
  | absent {name : Bytes} {location : Location} {fields others : Fields m} :
    (partPath path name, location) ∈ omitted → others.lookup name = none →
    FieldsAgree omitted path fields others →
    FieldsAgree omitted path ((name, some location, fun _ _ => return .absent) :: fields) others

/-- What two objects give for one field. -/
inductive FieldAgrees (omitted : List (Bytes × Location)) (path : Bytes) :
    Option (Option Location × Coercion m) → Option (Option Location × Coercion m) → Prop
  | none : FieldAgrees omitted path none none
  | some {location location' : Option Location} {value other : Coercion m} :
    value.SettlesBut omitted path other →
    FieldAgrees omitted path (some (location, value)) (some (location', other))
  | absent {location : Location} :
    (path, location) ∈ omitted →
    FieldAgrees omitted path (some (some location, fun _ _ => return .absent)) none

omit [LawfulMonad m] in
theorem FieldsAgree.lookup {fields others : Fields m} (h : FieldsAgree omitted path fields others)
    (name : Bytes) :
    FieldAgrees omitted (partPath path name) (fields.lookup name) (others.lookup name) := by
  induction h with
  | nil => exact .none
  | @cons key _ _ _ _ fields others hvalue _ ih =>
    rw [List.lookup_cons, List.lookup_cons]
    by_cases hkey : name = key
    · subst hkey
      simpa using FieldAgrees.some hvalue
    · rw [beq_eq_false_iff_ne.2 hkey]
      exact ih
  | @absent key location fields others hmem hnone _ ih =>
    rw [List.lookup_cons]
    by_cases hkey : name = key
    · subst hkey
      simpa [hnone] using FieldAgrees.absent hmem
    · rw [beq_eq_false_iff_ne.2 hkey]
      exact ih

omit [Monad m] [LawfulMonad m] in
theorem missingField_agreesBut {field : Argument} :
    Coerced.AgreesBut omitted (missingField schema field path location)
      (missingField schema field path location') := by
  unfold missingField
  cases field.default with
  | some value => exact ⟨rfl, .nil⟩
  | none =>
    dsimp only
    split
    · exact ⟨rfl, .cons rfl .nil⟩
    · exact ⟨rfl, .nil⟩

omit [Monad m] [LawfulMonad m] in
theorem deprecationIssues_agree {field : Argument} :
    IssuesAgree omitted (deprecationIssues schema field path location)
      (deprecationIssues schema field path location') := by
  unfold deprecationIssues
  cases field.deprecation with
  | none => exact .nil
  | some deprecation => exact .cons rfl .nil

omit [Monad m] [LawfulMonad m] in
/-- The notice about an omitted field that is deprecated. -/
theorem deprecationIssues_omitted {field : Argument} {place : Location}
    (h : (path, place) ∈ omitted) :
    IssuesAgree omitted (deprecationIssues schema field path (some place)) [] := by
  unfold deprecationIssues
  cases field.deprecation with
  | none => exact .nil
  | some deprecation => exact .notice rfl rfl h .nil

theorem FieldsAgree.declaredField {fields others : Fields m}
    (h : FieldsAgree omitted path fields others) (field : Argument) :
    InStep (Coerced.AgreesBut omitted) (declaredField schema location fields path field)
      (declaredField schema location' others path field) := by
  have hlookup := h.lookup field.name
  unfold Coercion.declaredField
  generalize fields.lookup field.name = given at hlookup ⊢
  generalize others.lookup field.name = other at hlookup ⊢
  cases hlookup with
  | none => exact .pure missingField_agreesBut
  | some hvalue =>
    refine (hvalue field.type).bind fun a b hab => .pure ?_
    obtain ⟨outcome, issues⟩ := a
    obtain ⟨_, later⟩ := b
    obtain ⟨⟨rfl, hissues⟩, habsent⟩ := hab
    cases outcome with
    | absent => exact absurd rfl habsent
    | _ => exact ⟨rfl, deprecationIssues_agree.append hissues⟩
  | absent hmem =>
    simp only [pure_bind]
    exact .pure (missingField_agreesBut.with_issues (deprecationIssues_omitted hmem))

theorem FieldsAgree.declaredFields {fields others : Fields m}
    (h : FieldsAgree omitted path fields others) (declared : List Argument) :
    InStep (PartsAgree omitted) (declaredFields schema location fields path declared)
      (declaredFields schema location' others path declared) := by
  induction declared with
  | nil => exact .pure ⟨rfl, .nil⟩
  | cons field rest ih =>
    refine (h.declaredField field).bind fun a b hab => ih.bind fun c d hcd => .pure ⟨?_, ?_⟩
    · rw [hab.outcome, hcd.1]
    · exact hab.issues.append hcd.2

omit [LawfulMonad m] in
theorem FieldsAgree.unknownFields {fields others : Fields m}
    (h : FieldsAgree omitted path fields others) (field? : Bytes → Option Argument) :
    IssuesAgree omitted (unknownFields field? path fields)
      (unknownFields field? path others) := by
  unfold Coercion.unknownFields
  induction h with
  | nil => exact .nil
  | cons _ _ ih =>
    rw [List.filter_cons, List.filter_cons]
    split
    · exact .cons rfl ih
    · exact ih
  | absent hmem _ _ ih =>
    rw [List.filter_cons]
    split
    · exact .notice rfl rfl hmem ih
    · exact ih

theorem FieldsAgree.object {fields others : Fields m}
    (h : FieldsAgree omitted path fields others) :
    (object schema location fields).SettlesBut omitted path
      (object schema location' others) := by
  refine single_inStep (fun id => atBody_inStep fun body => ?_) fun a b f => .map
  cases body with
  | scalar _ => exact .pure invalid_settlesBut
  | object _ => exact .pure invalid_settlesBut
  | inputObject declared =>
    refine (h.declaredFields declared).bind fun a b hab => ?_
    have hunknown := h.unknownFields (schema.inputField? id)
    obtain ⟨members, issues⟩ := a
    obtain ⟨_, others⟩ := b
    obtain ⟨rfl, hissues⟩ := hab
    cases members with
    | none => exact .pure (.failed (hunknown.append hissues))
    | some members => exact .pure (.ok (hunknown.append hissues))

end Coercion

end GraphQL
