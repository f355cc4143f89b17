/-
GraphQL.Proofs.Schema.Decided — coercion by scalars that are functions.

  §1 Results   — computations that are results, in pairs.
  §2 Steps     — null, scalars, lists and objects.
  §3 Values    — values are coerced alike whatever the defaults are.
  §4 Defaults  — a default is coerced in turn exactly if it is as it is written.

Where scalars have no effects coercion has none, so it comes to a result at
once. A default completes a value whatever the default is. So in two schemas
that differ in the values of defaults at most, a value is taken by both or by
neither.
-/
import GraphQL.Proofs.Schema.Closed

namespace GraphQL

variable {m : Type → Type} [Monad m]

/-! ## §1 Results -/

/-- Both computations are results, which are related. -/
def BothGive {α β : Type} (R : α → β → Prop) (x : Engine m α) (y : Engine m β) : Prop :=
  ∃ a b, x = pure a ∧ y = pure b ∧ R a b

namespace BothGive

variable {α β γ δ : Type} {R : α → β → Prop} {S : γ → δ → Prop} {x : Engine m α} {y : Engine m β}
  {f : α → Engine m γ} {g : β → Engine m δ}

theorem pure {a : α} {b : β} (h : R a b) : BothGive R (Pure.pure a : Engine m α) (Pure.pure b) :=
  ⟨a, b, rfl, rfl, h⟩

theorem bind [LawfulMonad m] (h : BothGive R x y)
    (hnext : ∀ a b, R a b → BothGive S (f a) (g b)) : BothGive S (x >>= f) (y >>= g) := by
  obtain ⟨a, b, rfl, rfl, hab⟩ := h
  rw [pure_bind, pure_bind]
  exact hnext a b hab

end BothGive

/-- Outcomes of one kind, whatever their values. -/
inductive Outcome.SameKind : Outcome → Outcome → Prop
  | ok (value other : Value) : SameKind (.ok value) (.ok other)
  | absent : SameKind .absent .absent
  | failed : SameKind .failed .failed

/-- Results whose outcomes are of one kind. -/
def Coerced.SameKind (coerced other : Coerced) : Prop := coerced.outcome.SameKind other.outcome

theorem Coerced.SameKind.map {coerced other : Coerced} (f g : Value → Value)
    (h : coerced.SameKind other) : (coerced.map f).SameKind (other.map g) := by
  obtain ⟨outcome, issues⟩ := coerced
  obtain ⟨outcome', issues'⟩ := other
  cases h with
  | ok value value' => exact .ok (f value) (g value')
  | absent => exact .absent
  | failed => exact .failed

/-! ## §2 Steps -/

namespace Coercion

/-- At every type that takes input both coercions come to results of one kind. -/
def Alike (schema : Schema m) (coercion other : Coercion m) : Prop :=
  ∀ type path, schema.TakesInput type.leaf →
    BothGive Coerced.SameKind (coercion type path) (other type path)

variable {schema other : Schema m} {location : Option Location}

theorem alike_null : Alike schema (null schema location) (null other location) := by
  intro type path _
  refine .pure ?_
  split
  · exact .failed
  · exact .ok _ _

variable [LawfulMonad m]

/-- What is no list is coerced alike under wrappers if it is at named types. -/
theorem alike_single {atName atName' : TypeId → Bytes → Engine m Coerced}
    (h : ∀ id path, schema.TakesInput id →
      BothGive Coerced.SameKind (atName id path) (atName' id path)) :
    Alike schema (single atName) (single atName') := by
  intro type path htakes
  induction type using TypeExpr.reading with
  | named id => exact h id path htakes
  | nonNull inner ih =>
    rw [single_nonNull, single_nonNull]
    exact ih (inner.leaf_unmarked ▸ htakes)
  | list element ih => exact (ih htakes).bind fun _ _ hab => .pure (hab.map _ _)

variable (hsame : schema.SameOutline other)
include hsame

omit [LawfulMonad m] in
/-- A type that takes input is a scalar type of both schemas, or an input object type of
both that differs in its defaults at most. -/
theorem atBody_alike {id : TypeId} (htakes : schema.TakesInput id)
    {fit fit' : TypeBody m → Engine m Coerced}
    (hscalar : ∀ coerce, schema.body? id = some (.scalar coerce) →
      BothGive Coerced.SameKind (fit (.scalar coerce)) (fit' (.scalar coerce)))
    (hinput : ∀ declared declared', schema.body? id = some (.inputObject declared) →
      declared.map Argument.outline = declared'.map Argument.outline →
      BothGive Coerced.SameKind (fit (.inputObject declared)) (fit' (.inputObject declared'))) :
    BothGive Coerced.SameKind (atBody schema id fit) (atBody other id fit') := by
  obtain ⟨body, hbody, hsort⟩ := htakes
  unfold atBody
  cases body with
  | object fields => exact absurd rfl hsort
  | scalar coerce =>
    rw [hbody, hsame.body?_scalar hbody]
    exact hscalar coerce hbody
  | inputObject declared =>
    obtain ⟨declared', hbody', houtline⟩ := hsame.body?_inputObject hbody
    rw [hbody, hbody']
    exact hinput declared declared' hbody houtline

omit [Monad m] [LawfulMonad m] hsame in
theorem sameKind_invalid {type : TypeExpr TypeId} {path : Bytes} :
    (invalid schema location type path).SameKind (invalid other location type path) := .failed

end Coercion

/-- The coercion functions of scalars have no effects. -/
def Schema.ScalarsPure (schema : Schema m) : Prop :=
  ∀ id coerce, schema.body? id = some (.scalar coerce) → ∀ value, ∃ result,
    coerce value = pure result

namespace Coercion

variable [LawfulMonad m] {schema other : Schema m} {location : Option Location}
  (hsame : schema.SameOutline other)

include hsame

theorem alike_scalar (hpure : schema.ScalarsPure) (value : Value) :
    Alike schema (scalar schema location value) (scalar other location value) := by
  refine alike_single fun id path htakes => atBody_alike hsame htakes ?_ ?_
  · intro coerce hbody
    obtain ⟨result, hresult⟩ := hpure id coerce hbody value
    simp only [hresult, pure_bind]
    cases result with
    | none => exact .pure sameKind_invalid
    | some result => exact .pure (.ok _ _)
  · exact fun _ _ _ _ => .pure sameKind_invalid

omit hsame in
theorem alike_valueItems {items others : List (Coercion m)}
    (h : List.Forall₂ (Alike schema) items others) {element : TypeExpr TypeId}
    (htakes : schema.TakesInput element.leaf) (path : Bytes) (index : Nat) :
    BothGive (fun parts others => parts.1.isSome = others.1.isSome)
      (valueItems element path index items) (valueItems element path index others) := by
  induction h generalizing index with
  | nil => exact .pure rfl
  | cons hitem _ ih =>
    refine (hitem element _ htakes).bind fun first first' hfirst => ?_
    refine (ih (index + 1)).bind fun rest rest' hrest => ?_
    obtain ⟨outcome, issues⟩ := first
    obtain ⟨outcome', issues'⟩ := first'
    obtain ⟨values, later⟩ := rest
    obtain ⟨values', later'⟩ := rest'
    cases hfirst with
    | absent => exact .pure rfl
    | failed => exact .pure rfl
    | ok value value' => cases values <;> cases values' <;> first | exact .pure rfl | cases hrest

theorem alike_valueList {items others : List (Coercion m)}
    (h : List.Forall₂ (Alike schema) items others) :
    Alike schema (valueList schema location items) (valueList other location others) := by
  intro type path htakes
  induction type using TypeExpr.reading with
  | named id =>
    exact atBody_alike hsame htakes (fun _ _ => .pure sameKind_invalid)
      fun _ _ _ _ => .pure sameKind_invalid
  | nonNull inner ih =>
    rw [valueList_nonNull, valueList_nonNull]
    exact ih (inner.leaf_unmarked ▸ htakes)
  | list element ih =>
    have helement : schema.TakesInput element.leaf := htakes
    refine (alike_valueItems h helement path 0).bind fun parts parts' hparts => .pure ?_
    obtain ⟨_ | values, issues⟩ := parts <;> obtain ⟨_ | values', issues'⟩ := parts'
    · exact .failed
    · cases hparts
    · cases hparts
    · exact .ok _ _

/-- Members of two objects with the same names and with coercions that are alike. -/
abbrev MembersAlike (schema : Schema m) (members others : Supplied m) : Prop :=
  List.Forall₂ (fun member other => member.1 = other.1 ∧ Alike schema member.2 other.2)
    members others

omit [Monad m] [LawfulMonad m] hsame in
/-- A field without member is completed by its default, whatever this is. -/
theorem sameKind_missingField {field field' : Argument} (houtline : field.outline = field'.outline)
    {path : Bytes} : (missingField schema field path location).SameKind
      (missingField other field' path location) := by
  have hsome := Argument.isSome_default_of_outline houtline
  unfold missingField Argument.required
  rw [Argument.type_eq_of_outline houtline]
  cases hdefault : field.default <;> cases hdefault' : field'.default <;>
    simp only [hdefault, hdefault'] at hsome ⊢
  · split
    · exact .failed
    · exact .absent
  · cases hsome
  · cases hsome
  · exact .ok _ _

omit hsame in
theorem alike_valueField {members others : Supplied m} (h : MembersAlike schema members others)
    {field field' : Argument} (houtline : field.outline = field'.outline)
    (htakes : schema.TakesInput field.type.leaf) (path : Bytes) :
    BothGive Coerced.SameKind (valueField schema location members path field)
      (valueField other location others path field') := by
  unfold valueField
  rw [Argument.name_eq_of_outline houtline, Argument.type_eq_of_outline houtline] at *
  have hlookup : Option.Rel (Alike schema) (members.lookup field'.name)
      (others.lookup field'.name) := lookup_rel h field'.name
  dsimp only
  cases hmember : members.lookup field'.name <;> cases hother : others.lookup field'.name <;>
    rw [hmember, hother] at hlookup <;> cases hlookup
  · exact .pure (sameKind_missingField houtline)
  · rename_i halike
    exact (halike field'.type _ htakes).bind fun _ _ hab => .pure hab

omit hsame in
theorem alike_valueFields {members others : Supplied m} (h : MembersAlike schema members others)
    {declared declared' : List Argument}
    (houtline : declared.map Argument.outline = declared'.map Argument.outline)
    (htake : ∀ field ∈ declared, schema.TakesInput field.type.leaf) (path : Bytes) :
    BothGive (fun parts others => parts.1.isSome = others.1.isSome)
      (valueFields schema location members path declared)
      (valueFields other location others path declared') := by
  induction declared generalizing declared' with
  | nil =>
    rw [List.map_eq_nil_iff.1 houtline.symm]
    exact .pure rfl
  | cons field rest ih =>
    obtain ⟨field', rest', rfl, hfirst, hothers⟩ := List.map_eq_cons_iff.1 houtline.symm
    obtain ⟨htakes, hrest⟩ := List.forall_mem_cons.1 htake
    refine (alike_valueField h hfirst.symm htakes path).bind fun first first' hkind => ?_
    refine (ih hothers.symm hrest).bind fun parts parts' hparts => ?_
    obtain ⟨outcome, issues⟩ := first
    obtain ⟨outcome', issues'⟩ := first'
    obtain ⟨values, later⟩ := parts
    obtain ⟨values', later'⟩ := parts'
    cases hkind with
    | absent => exact .pure hparts
    | failed => exact .pure rfl
    | ok value value' => cases values <;> cases values' <;> first | exact .pure rfl | cases hparts

theorem alike_valueObject {members others : Supplied m} (h : MembersAlike schema members others)
    (hbodies : ∀ id body, schema.body? id = some body → body.Closed schema) :
    Alike schema (valueObject schema location members) (valueObject other location others) := by
  refine alike_single fun id path htakes => atBody_alike hsame htakes ?_ ?_
  · exact fun _ _ => .pure sameKind_invalid
  · intro declared declared' hbody houtline
    refine (alike_valueFields h houtline (hbodies id _ hbody) path).bind fun parts parts' hparts =>
      .pure ?_
    obtain ⟨_ | values, issues⟩ := parts <;> obtain ⟨_ | values', issues'⟩ := parts'
    · exact .failed
    · cases hparts
    · cases hparts
    · exact .ok _ _

end Coercion

/-! ## §3 Values -/

namespace Value

variable {schema other : Schema m}

mutual

/-- A value is coerced alike in two schemas that differ in the values of defaults at most. -/
theorem coerce_alike [LawfulMonad m] (hsame : schema.SameOutline other)
    (hbodies : ∀ id body, schema.body? id = some body → body.Closed schema)
    (hpure : schema.ScalarsPure) (location : Option Location) :
    ∀ value : Value,
    Coercion.Alike schema (value.coerce schema location) (value.coerce other location)
  | .null => by
    unfold coerce
    exact Coercion.alike_null
  | .list items => by
    unfold coerce
    exact Coercion.alike_valueList hsame (coerceItems_alike hsame hbodies hpure location items)
  | .object members => by
    unfold coerce
    exact Coercion.alike_valueObject hsame
      (coerceMembers_alike hsame hbodies hpure location members) hbodies
  | .bool _ | .int _ | .uint _ | .float _ | .string _ => by
    unfold coerce
    exact Coercion.alike_scalar hsame hpure _

/-- So are the items of a list. -/
theorem coerceItems_alike [LawfulMonad m] (hsame : schema.SameOutline other)
    (hbodies : ∀ id body, schema.body? id = some body → body.Closed schema)
    (hpure : schema.ScalarsPure) (location : Option Location) :
    ∀ items : List Value,
    List.Forall₂ (Coercion.Alike schema) (coerceItems schema location items)
      (coerceItems other location items)
  | [] => .nil
  | item :: rest =>
    .cons (coerce_alike hsame hbodies hpure location item)
      (coerceItems_alike hsame hbodies hpure location rest)

/-- So are the members of an object. -/
theorem coerceMembers_alike [LawfulMonad m] (hsame : schema.SameOutline other)
    (hbodies : ∀ id body, schema.body? id = some body → body.Closed schema)
    (hpure : schema.ScalarsPure) (location : Option Location) :
    ∀ members : List (Bytes × Value),
    Coercion.MembersAlike schema (coerceMembers schema location members)
      (coerceMembers other location members)
  | [] => .nil
  | (_, value) :: rest =>
    .cons ⟨rfl, coerce_alike hsame hbodies hpure location value⟩
      (coerceMembers_alike hsame hbodies hpure location rest)

end

end Value

/-! ## §4 Defaults -/

/-- The coercion of the value comes to the result, without any effect. -/
def Value.ComesTo (schema : Schema m) (type : TypeExpr TypeId) (path : Bytes)
    (value result : Value) : Prop :=
  ∃ issues, value.coerce schema none type path = pure ⟨.ok result, issues⟩

/-- The default of the argument, if it has one, is coerced to the type of the argument. -/
def Argument.DefaultTaken (schema : Schema m) (argument : Argument) : Prop :=
  ∀ value, argument.default = some value →
    ∃ result, value.ComesTo schema argument.type argument.name result

variable [LawfulMonad m]

/-- In a monad that takes two results for one, all computations are the same. -/
theorem eq_of_pure_eq {α β : Type} {a b : α} (h : (pure a : Engine m α) = pure b) (hne : a ≠ b)
    (x y : Engine m β) : x = y := by
  classical
  calc x = (pure a : Engine m α) >>= fun c => if c = a then x else y := by simp
    _ = (pure b : Engine m α) >>= fun c => if c = a then x else y := by rw [h]
    _ = y := by simp [Ne.symm hne]

/-- The coercion in the second schema comes to a value if that in the first one does, and
to nothing else if it does not. -/
theorem Value.comesTo_or (schema other : Schema m) {type : TypeExpr TypeId} {path : Bytes}
    {value : Value}
    (h : BothGive Coerced.SameKind (value.coerce schema none type path)
      (value.coerce other none type path)) :
    (∃ given, value.ComesTo schema type path given) ∧
      (∃ result, value.ComesTo other type path result) ∨
    (¬ ∃ given, value.ComesTo schema type path given) ∧
      ∃ coerced, value.coerce other none type path = pure coerced ∧
        ∀ result, coerced.outcome ≠ .ok result := by
  obtain ⟨⟨outcome, issues⟩, ⟨outcome', issues'⟩, hgiven, hother, hkind⟩ := h
  by_cases htaken : ∃ given, value.ComesTo schema type path given
  · obtain ⟨given, found, hfound⟩ := htaken
    refine .inl ⟨⟨given, found, hfound⟩, ?_⟩
    cases hkind with
    | ok _ result => exact ⟨result, issues', hother⟩
    | absent | failed =>
      rw [hgiven] at hfound
      exact ⟨given, found, eq_of_pure_eq hfound (by simp) _ _⟩
  · refine .inr ⟨htaken, _, hother, fun result heq => htaken ?_⟩
    cases hkind with
    | ok given _ => exact ⟨given, issues, hgiven⟩
    | absent | failed => cases heq

end GraphQL
