/-
GraphQL.Proofs.Input.Reordering — input whose parts are written in another order.

  §1 Lists     — lists in which only loose items have changed places.
  §2 Input     — values and literals up to the order of members and fields.
  §3 Results   — coerced input up to the order of notices about what is not declared.
  §4 Parts     — lists and objects whose parts are coerced alike.
  §5 Coercion  — reordered values and literals are coerced alike.

Two things are done with the parts of an object. The declared fields are
looked up by name, and what is found under a name does not depend on the order
as long as names differ. The parts are also gone through in the order in which
they are written, but only for notices about those that are not declared.
-/
import GraphQL.Proofs.Input.Agreement
import GraphQL.Proofs.Value.Members

namespace GraphQL

/-! ## §1 Lists -/

/-- The same items, of which only loose ones have changed places with each other. -/
structure Rearranged {α : Type} (loose : α → Prop) (items others : List α) : Prop where
  perm : items.Perm others
  places : List.Forall₂ (fun item other => item = other ∨ loose item ∧ loose other) items others

namespace Rearranged

variable {α β : Type} {loose : α → Prop} {items others more rest : List α}

theorem refl (items : List α) : Rearranged loose items items :=
  ⟨.refl _, List.forall₂_same.2 fun _ _ => .inl rfl⟩

theorem append (h : Rearranged loose items others) (hmore : Rearranged loose more rest) :
    Rearranged loose (items ++ more) (others ++ rest) :=
  ⟨h.perm.append hmore.perm, List.rel_append h.places hmore.places⟩

/-- Loose items may be in any order. -/
theorem of_perm (h : items.Perm others) (hloose : ∀ item ∈ items, loose item) :
    Rearranged loose items others := by
  refine ⟨h, List.forall₂_iff_zip.2 ⟨h.length_eq, fun hmem => ?_⟩⟩
  obtain ⟨hitem, hother⟩ := List.of_mem_zip hmem
  exact .inr ⟨hloose _ hitem, hloose _ (h.mem_iff.2 hother)⟩

/-- What is made of some of the items, if it is read off a view of them that is the same up
to order. -/
theorem of_views {γ : Type} {loose : γ → Prop} {view : α → β}
    (h : (items.map view).Perm (others.map view)) (p : β → Bool) (make : β → γ)
    (hloose : ∀ b, loose (make b)) :
    Rearranged loose ((items.filter fun item => p (view item)).map fun item => make (view item))
      ((others.filter fun item => p (view item)).map fun item => make (view item)) := by
  have hviews : ∀ items : List α, ((items.filter fun item => p (view item)).map
      fun item => make (view item)) = ((items.map view).filter p).map make := fun items => by
    rw [List.filter_map, List.map_map]
    rfl
  refine of_perm ?_ (List.forall_mem_map.2 fun item _ => hloose (view item))
  rw [hviews, hviews]
  exact (h.filter p).map make

/-- What looks at no loose item cannot tell the lists apart. -/
theorem filterMap_eq (h : Rearranged loose items others) {f : α → Option β}
    (hf : ∀ item, loose item → f item = none) : items.filterMap f = others.filterMap f := by
  obtain ⟨-, hplaces⟩ := h
  induction hplaces with
  | nil => rfl
  | cons hfirst _ ih =>
    rw [List.filterMap_cons, List.filterMap_cons, ih]
    obtain rfl | ⟨hitem, hother⟩ := hfirst
    · rfl
    · rw [hf _ hitem, hf _ hother]

theorem filter_eq (h : Rearranged loose items others) {p : α → Bool}
    (hp : ∀ item, loose item → p item = false) : items.filter p = others.filter p := by
  rw [← List.filterMap_eq_filter]
  exact h.filterMap_eq fun item hitem => by simp [hp item hitem]

end Rearranged

/-! ## §2 Input -/

mutual

/-- The same value, but for the order of members in its objects. -/
inductive Value.Reordered : Value → Value → Prop
  | same (value : Value) : Value.Reordered value value
  | list {items others : List Value} :
    Value.ItemsReordered items others → Value.Reordered (.list items) (.list others)
  | object {members others : Members} :
    Value.MembersReordered members others → Value.Reordered (.object members) (.object others)

/-- The same items in the same order, each of them reordered. -/
inductive Value.ItemsReordered : List Value → List Value → Prop
  | nil : Value.ItemsReordered [] []
  | cons {item other : Value} {rest others : List Value} :
    Value.Reordered item other → Value.ItemsReordered rest others →
    Value.ItemsReordered (item :: rest) (other :: others)

/-- The same keys in the same order, each of the values reordered. -/
inductive Value.MembersAlike : Members → Members → Prop
  | nil : Value.MembersAlike [] []
  | cons {key : Bytes} {value other : Value} {rest others : Members} :
    Value.Reordered value other → Value.MembersAlike rest others →
    Value.MembersAlike ((key, value) :: rest) ((key, other) :: others)

/-- Members of different keys in any order, each of the values reordered. -/
inductive Value.MembersReordered : Members → Members → Prop
  | intro {members alike others : Members} :
    (members.map (·.1)).Nodup → Value.MembersAlike members alike → alike.Perm others →
    Value.MembersReordered members others

end

mutual

/-- The same literal, but for the order of fields in its objects. Every part
stays in its place in the document. -/
inductive Literal.Reordered : Literal → Literal → Prop
  | same (literal : Literal) : Literal.Reordered literal literal
  | list {location : Location} {items others : List Literal} :
    Literal.ItemsReordered items others →
    Literal.Reordered (.list location items) (.list location others)
  | object {location : Location} {fields others : List (Entry Literal)} :
    Literal.EntriesReordered fields others →
    Literal.Reordered (.object location fields) (.object location others)

/-- The same items in the same order, each of them reordered. -/
inductive Literal.ItemsReordered : List Literal → List Literal → Prop
  | nil : Literal.ItemsReordered [] []
  | cons {item other : Literal} {rest others : List Literal} :
    Literal.Reordered item other → Literal.ItemsReordered rest others →
    Literal.ItemsReordered (item :: rest) (other :: others)

/-- The same names and places in the same order, each of the literals reordered. -/
inductive Literal.EntriesAlike : List (Entry Literal) → List (Entry Literal) → Prop
  | nil : Literal.EntriesAlike [] []
  | cons {name : Bytes} {value other : Literal} {location : Location}
      {rest others : List (Entry Literal)} :
    Literal.Reordered value other → Literal.EntriesAlike rest others →
    Literal.EntriesAlike (⟨name, value, location⟩ :: rest) (⟨name, other, location⟩ :: others)

/-- Entries of different names in any order, each of the literals reordered. -/
inductive Literal.EntriesReordered : List (Entry Literal) → List (Entry Literal) → Prop
  | intro {entries alike others : List (Entry Literal)} :
    (entries.map (·.name)).Nodup → Literal.EntriesAlike entries alike → alike.Perm others →
    Literal.EntriesReordered entries others

end

namespace Value

theorem MembersAlike.forall₂ {members others : Members} (h : MembersAlike members others) :
    List.Forall₂ (fun member other => member.1 = other.1 ∧ Reordered member.2 other.2)
      members others := by
  match h with
  | .nil => exact .nil
  | .cons hvalue hrest => exact .cons ⟨rfl, hvalue⟩ hrest.forall₂
termination_by structural h

theorem MembersAlike.refl (members : Members) : MembersAlike members members := by
  induction members with
  | nil => exact .nil
  | cons member rest ih => exact .cons (.same member.2) ih

/-- Members of different keys are reordered by every permutation. -/
theorem MembersReordered.of_perm {members others : Members} (hkeys : (members.map (·.1)).Nodup)
    (h : members.Perm others) : MembersReordered members others :=
  .intro hkeys (.refl members) h

/-- Under each key there are two values that are reordered, or none. -/
theorem MembersReordered.lookup {members others : Members} (h : MembersReordered members others)
    (key : Bytes) : Option.Rel Reordered (members.lookup key) (others.lookup key) := by
  obtain ⟨hkeys, halike, hperm⟩ := h
  exact lookup_rel_perm hkeys halike.forall₂ hperm key

end Value

namespace Literal

theorem EntriesAlike.forall₂ {entries others : List (Entry Literal)}
    (h : EntriesAlike entries others) :
    List.Forall₂ (fun entry other => entry.name = other.name ∧ entry.location = other.location ∧
      Reordered entry.value other.value) entries others := by
  match h with
  | .nil => exact .nil
  | .cons hvalue hrest => exact .cons ⟨rfl, rfl, hvalue⟩ hrest.forall₂
termination_by structural h

theorem EntriesAlike.refl (entries : List (Entry Literal)) : EntriesAlike entries entries := by
  induction entries with
  | nil => exact .nil
  | cons entry rest ih => exact .cons (.same entry.value) ih

/-- Entries of different names are reordered by every permutation. -/
theorem EntriesReordered.of_perm {entries others : List (Entry Literal)}
    (hnames : (entries.map (·.name)).Nodup) (h : entries.Perm others) :
    EntriesReordered entries others :=
  .intro hnames (.refl entries) h

theorem Reordered.location_eq {literal other : Literal} (h : literal.Reordered other) :
    literal.location = other.location := by
  cases h <;> rfl

end Literal

/-! ## §3 Results -/

/-- The issue is about a field that is not declared. -/
def Issue.AboutUnknown (issue : Issue) : Prop := issue.kind = .unknown

/-- The same outcome, and the same issues but for the order of those about
fields that are not declared. -/
structure Coerced.Rearranged (coerced other : Coerced) : Prop where
  outcome : coerced.outcome = other.outcome
  issues : GraphQL.Rearranged Issue.AboutUnknown coerced.issues other.issues

namespace Coerced.Rearranged

variable {coerced other : Coerced}

theorem refl (coerced : Coerced) : Rearranged coerced coerced := ⟨rfl, .refl _⟩

theorem map {f : Value → Value} (h : Rearranged coerced other) :
    Rearranged (coerced.map f) (other.map f) := by
  obtain ⟨outcome, issues⟩ := coerced
  obtain ⟨_, others⟩ := other
  obtain ⟨rfl, hissues⟩ := h
  cases outcome <;> exact ⟨rfl, hissues⟩

end Coerced.Rearranged

variable {m : Type → Type} [Monad m] [LawfulMonad m]

namespace Coercion

variable {schema : Schema m} {location : Option Location}

/-- Coercions that run in step at every type, with results that are rearranged at most. -/
def Rearranges (coercion other : Coercion m) : Prop :=
  ∀ type path, InStep Coerced.Rearranged (coercion type path) (other type path)

theorem Rearranges.refl (coercion : Coercion m) : coercion.Rearranges coercion :=
  fun type path => .refl Coerced.Rearranged.refl (coercion type path)

/-! ## §4 Parts -/

/-- Parts with the same values, and with issues that are rearranged at most. -/
def PartsRearranged {α : Type} (parts others : Option α × List Issue) : Prop :=
  parts.1 = others.1 ∧ Rearranged Issue.AboutUnknown parts.2 others.2

theorem Rearranges.orNull {item other : Coercion m} (h : item.Rearranges other) :
    (item.orNull schema location).Rearranges (other.orNull schema location) := by
  intro type path
  refine (h type path).bind fun a b hab => ?_
  rw [hab.outcome]
  cases b.outcome with
  | absent => exact .refl Coerced.Rearranged.refl _
  | _ => exact .pure hab

/-- Items in the same places whose coercions rearrange issues at most. -/
abbrev ItemsRearrange (items others : List (Option Location × Coercion m)) : Prop :=
  List.Forall₂ (fun item other => item.1 = other.1 ∧ item.2.Rearranges other.2) items others

theorem ItemsRearrange.listItems {items others : List (Option Location × Coercion m)}
    (h : ItemsRearrange items others) (element : TypeExpr TypeId) (path : Bytes) (index : Nat) :
    InStep PartsRearranged (listItems schema element path index items)
      (listItems schema element path index others) := by
  induction h generalizing index with
  | nil => exact .pure ⟨rfl, .refl _⟩
  | cons hitem _ ih =>
    obtain ⟨hlocation, hitem⟩ := hitem
    rw [listItems_cons, listItems_cons, hlocation]
    refine (hitem.orNull element _).bind fun a b hab => (ih _).bind fun c d hcd => .pure ⟨?_, ?_⟩
    · rw [hab.outcome, hcd.1]
    · exact hab.issues.append hcd.2

theorem ItemsRearrange.list {items others : List (Option Location × Coercion m)}
    (h : ItemsRearrange items others) :
    (list schema location items).Rearranges (list schema location others) := by
  intro type path
  induction type using TypeExpr.reading with
  | named id => exact .refl Coerced.Rearranged.refl _
  | nonNull inner ih =>
    rw [list_nonNull, list_nonNull]
    exact ih
  | list element ih =>
    refine (h.listItems element path 0).bind fun a b hab => ?_
    obtain ⟨values, issues⟩ := a
    obtain ⟨_, others⟩ := b
    obtain ⟨rfl, hissues⟩ := hab
    cases values <;> exact .pure ⟨rfl, hissues⟩

/-- The name and the place of each field. -/
def Fields.places (fields : Fields m) : List (Bytes × Option Location) :=
  fields.map fun field => (field.1, field.2.1)

/-- Fields that are found alike under every name, written in any order. -/
structure FieldsRearrange (fields others : Fields m) : Prop where
  found : ∀ name, Option.Rel (fun field other => field.1 = other.1 ∧ field.2.Rearranges other.2)
    (fields.lookup name) (others.lookup name)
  places : (Fields.places fields).Perm (Fields.places others)

/-- Fields in the same places whose coercions rearrange issues at most. -/
abbrev FieldsAlike (fields others : Fields m) : Prop :=
  List.Forall₂ (fun field other => field.1 = other.1 ∧ field.2.1 = other.2.1 ∧
    field.2.2.Rearranges other.2.2) fields others

omit [LawfulMonad m] in
theorem FieldsAlike.rearrange {fields others : Fields m} (h : FieldsAlike fields others) :
    FieldsRearrange fields others where
  found := lookup_rel h
  places := .of_eq (map_eq_of_forall₂ h fun _ _ hsame => Prod.ext hsame.1 hsame.2.1)

omit [LawfulMonad m] in
theorem FieldsAlike.rearrange_perm {fields alike others : Fields m} (h : FieldsAlike fields alike)
    (hnames : (fields.map (·.1)).Nodup) (hperm : alike.Perm others) :
    FieldsRearrange fields others where
  found := lookup_rel_perm hnames h hperm
  places := h.rearrange.places.trans (hperm.map _)

namespace FieldsRearrange

variable {fields others : Fields m}

omit [LawfulMonad m] in
/-- Issues about fields that are not declared follow the order of the fields. -/
theorem unknownFields (h : FieldsRearrange fields others)
    (field? : Bytes → Option Argument) (path : Bytes) :
    Rearranged Issue.AboutUnknown (unknownFields field? path fields)
      (unknownFields field? path others) :=
  .of_views h.places (fun place => (field? place.1).isNone)
    (fun place => (⟨.unknown, partPath path place.1, [], place.2⟩ : Issue)) fun _ => rfl

theorem declaredField (h : FieldsRearrange fields others) (path : Bytes) (field : Argument) :
    InStep Coerced.Rearranged (declaredField schema location fields path field)
      (declaredField schema location others path field) := by
  have hfound := h.found field.name
  unfold Coercion.declaredField
  generalize fields.lookup field.name = given at hfound ⊢
  generalize others.lookup field.name = other at hfound ⊢
  cases hfound with
  | none => exact .refl Coerced.Rearranged.refl _
  | @some given other hsame =>
    obtain ⟨givenLocation, coercion⟩ := given
    obtain ⟨_, other⟩ := other
    obtain ⟨rfl, hsame⟩ := hsame
    refine (hsame field.type _).bind fun a b hab => .pure ?_
    obtain ⟨outcome, issues⟩ := a
    obtain ⟨_, later⟩ := b
    obtain ⟨rfl, hissues⟩ := hab
    cases outcome with
    | absent => exact ⟨rfl, .refl _⟩
    | _ => exact ⟨rfl, (Rearranged.refl _).append hissues⟩

theorem declaredFields (h : FieldsRearrange fields others) (path : Bytes)
    (declared : List Argument) :
    InStep PartsRearranged (declaredFields schema location fields path declared)
      (declaredFields schema location others path declared) := by
  induction declared with
  | nil => exact .pure ⟨rfl, .refl _⟩
  | cons field rest ih =>
    refine (h.declaredField path field).bind fun a b hab => ih.bind fun c d hcd => .pure ⟨?_, ?_⟩
    · rw [hab.outcome, hcd.1]
    · exact hab.issues.append hcd.2

theorem object (h : FieldsRearrange fields others) :
    (object schema location fields).Rearranges (object schema location others) := by
  intro type path
  refine single_inStep (fun id => atBody_inStep fun body => ?_) (fun a b f => .map) type
  cases body with
  | scalar _ => exact .refl Coerced.Rearranged.refl _
  | object _ => exact .refl Coerced.Rearranged.refl _
  | inputObject declared =>
    refine (h.declaredFields path declared).bind fun a b hab => ?_
    have hunknown := h.unknownFields (schema.inputField? id) path
    obtain ⟨members, issues⟩ := a
    obtain ⟨_, others⟩ := b
    obtain ⟨rfl, hissues⟩ := hab
    cases members <;> exact .pure ⟨rfl, hunknown.append hissues⟩

end FieldsRearrange

end Coercion

/-! ## §5 Coercion -/

namespace Input

variable (schema : Schema m)

omit [LawfulMonad m] in
theorem coerceFields_ofMembers (location : Option Location) (members : Members) :
    coerceFields schema (ofMembers location members) =
      members.map fun member =>
        (member.1, location, (ofValue location member.2).coerce schema) := by
  induction members with
  | nil => rfl
  | cons member rest ih => rw [ofMembers, coerceFields, ih, List.map_cons]

omit [LawfulMonad m] in
theorem coerceFields_ofEntries (bindings : Members) (entries : List (Entry Literal)) :
    coerceFields schema (ofEntries bindings entries) = entries.map fun entry =>
      (entry.name, some entry.location, (ofLiteral bindings entry.value).coerce schema) := by
  induction entries with
  | nil => rfl
  | cons entry rest ih => rw [ofEntries, coerceFields, ih, List.map_cons]

end Input

namespace Value

variable (schema : Schema m) (location : Option Location)

omit [LawfulMonad m] in
mutual

/-- Reordered values are coerced alike. -/
theorem Reordered.rearranges [LawfulMonad m] {value other : Value} (h : value.Reordered other) :
    ((Input.ofValue location value).coerce schema).Rearranges
      ((Input.ofValue location other).coerce schema) := by
  match h with
  | .same value => exact .refl _
  | .list hitems =>
    unfold Input.ofValue Input.coerce
    exact (hitems.rearrange).list
  | .object hmembers =>
    unfold Input.ofValue Input.coerce
    exact (hmembers.rearrange).object
termination_by structural h

/-- So are the items of a list. -/
theorem ItemsReordered.rearrange [LawfulMonad m]
    {items others : List Value} (h : ItemsReordered items others) :
    Coercion.ItemsRearrange (Input.coerceItems schema (Input.ofValues location items))
      (Input.coerceItems schema (Input.ofValues location others)) := by
  match h with
  | .nil => exact .nil
  | .cons hitem hrest =>
    exact .cons ⟨by simp, hitem.rearranges⟩ hrest.rearrange
termination_by structural h

theorem MembersAlike.rearrange [LawfulMonad m]
    {members others : Members} (h : MembersAlike members others) :
    Coercion.FieldsAlike (Input.coerceFields schema (Input.ofMembers location members))
      (Input.coerceFields schema (Input.ofMembers location others)) := by
  match h with
  | .nil => exact .nil
  | .cons hvalue hrest => exact .cons ⟨rfl, rfl, hvalue.rearranges⟩ hrest.rearrange
termination_by structural h

/-- So are the members of an object. -/
theorem MembersReordered.rearrange [LawfulMonad m] {members others : Members}
    (h : MembersReordered members others) :
    Coercion.FieldsRearrange (Input.coerceFields schema (Input.ofMembers location members))
      (Input.coerceFields schema (Input.ofMembers location others)) := by
  match h with
  | .intro hkeys halike hperm =>
    refine halike.rearrange.rearrange_perm ?_ ?_
    · rw [Input.coerceFields_ofMembers, List.map_map]
      exact hkeys
    · rw [Input.coerceFields_ofMembers, Input.coerceFields_ofMembers]
      exact hperm.map _
termination_by structural h

end

end Value

namespace Literal

variable (schema : Schema m) {bindings others : Members}

omit [LawfulMonad m] in
mutual

/-- A literal is coerced alike if the members of variables are reordered. -/
theorem rearranges_of_bindings [LawfulMonad m]
    (hbindings : Value.MembersReordered bindings others) : ∀ literal : Literal,
    ((Input.ofLiteral bindings literal).coerce schema).Rearranges
      ((Input.ofLiteral others literal).coerce schema)
  | .reference location name => by
    have hfound := hbindings.lookup name
    unfold Input.ofLiteral
    generalize bindings.lookup name = given at hfound ⊢
    generalize others.lookup name = other at hfound ⊢
    cases hfound with
    | none => exact .refl _
    | some hvalue => exact hvalue.rearranges schema (some location)
  | .list location items => by
    unfold Input.ofLiteral Input.coerce
    exact (itemsRearrange_of_bindings hbindings items).list
  | .object location fields => by
    unfold Input.ofLiteral Input.coerce
    exact (fieldsAlike_of_bindings hbindings fields).rearrange.object
  | .null _ | .int _ _ | .float _ _ | .string _ _ | .boolean _ _ | .enum _ _ => .refl _

/-- So are the items of a list. -/
theorem itemsRearrange_of_bindings [LawfulMonad m]
    (hbindings : Value.MembersReordered bindings others) : ∀ items : List Literal,
    Coercion.ItemsRearrange (Input.coerceItems schema (Input.ofLiterals bindings items))
      (Input.coerceItems schema (Input.ofLiterals others items))
  | [] => .nil
  | item :: rest =>
    .cons ⟨by simp, rearranges_of_bindings hbindings item⟩
      (itemsRearrange_of_bindings hbindings rest)

/-- So are the fields of an object. -/
theorem fieldsAlike_of_bindings [LawfulMonad m]
    (hbindings : Value.MembersReordered bindings others) : ∀ fields : List (Entry Literal),
    Coercion.FieldsAlike (Input.coerceFields schema (Input.ofEntries bindings fields))
      (Input.coerceFields schema (Input.ofEntries others fields))
  | [] => .nil
  | ⟨_, value, _⟩ :: rest =>
    .cons ⟨rfl, rfl, rearranges_of_bindings hbindings value⟩
      (fieldsAlike_of_bindings hbindings rest)

end

omit [LawfulMonad m] in
mutual

/-- Reordered literals are coerced alike. -/
theorem Reordered.rearranges [LawfulMonad m] (hbindings : Value.MembersReordered bindings others)
    {literal other : Literal} (h : literal.Reordered other) :
    ((Input.ofLiteral bindings literal).coerce schema).Rearranges
      ((Input.ofLiteral others other).coerce schema) := by
  match h with
  | .same literal => exact rearranges_of_bindings schema hbindings literal
  | .list hitems =>
    unfold Input.ofLiteral Input.coerce
    exact (hitems.rearrange hbindings).list
  | .object hfields =>
    unfold Input.ofLiteral Input.coerce
    exact (hfields.rearrange hbindings).object
termination_by structural h

/-- So are the items of a list. -/
theorem ItemsReordered.rearrange [LawfulMonad m]
    (hbindings : Value.MembersReordered bindings others) {items changed : List Literal}
    (h : ItemsReordered items changed) :
    Coercion.ItemsRearrange (Input.coerceItems schema (Input.ofLiterals bindings items))
      (Input.coerceItems schema (Input.ofLiterals others changed)) := by
  match h with
  | .nil => exact .nil
  | .cons hitem hrest =>
    exact .cons ⟨by simp [hitem.location_eq], hitem.rearranges hbindings⟩
      (hrest.rearrange hbindings)
termination_by structural h

theorem EntriesAlike.rearrange [LawfulMonad m]
    (hbindings : Value.MembersReordered bindings others) {entries changed : List (Entry Literal)}
    (h : EntriesAlike entries changed) :
    Coercion.FieldsAlike (Input.coerceFields schema (Input.ofEntries bindings entries))
      (Input.coerceFields schema (Input.ofEntries others changed)) := by
  match h with
  | .nil => exact .nil
  | .cons hvalue hrest =>
    exact .cons ⟨rfl, rfl, hvalue.rearranges hbindings⟩ (hrest.rearrange hbindings)
termination_by structural h

/-- So are the fields of an object. -/
theorem EntriesReordered.rearrange [LawfulMonad m]
    (hbindings : Value.MembersReordered bindings others) {entries changed : List (Entry Literal)}
    (h : EntriesReordered entries changed) :
    Coercion.FieldsRearrange (Input.coerceFields schema (Input.ofEntries bindings entries))
      (Input.coerceFields schema (Input.ofEntries others changed)) := by
  match h with
  | .intro hnames halike hperm =>
    refine (halike.rearrange hbindings).rearrange_perm ?_ ?_
    · rw [Input.coerceFields_ofEntries, List.map_map]
      exact hnames
    · rw [Input.coerceFields_ofEntries, Input.coerceFields_ofEntries]
      exact hperm.map _
termination_by structural h

end

end Literal

end GraphQL
