/-
GraphQL.Proofs.Execution.Objects — the objects that are made of visits.

  §1 Objects   — objects of a value, of a field and of a request.
  §2 Descent   — every visit is reached by going down through objects.
  §3 Truth     — what is told of a field is told of what lies below it.

An account is a tree whose nodes are visits and objects in turn, with lists in
between that hold nothing but objects. Descent is the induction on that tree.
It is proved once, and facts about visits at any depth are proved by giving
the step from an object to the fields in it.
-/
import GraphQL.Proofs.Execution.Account
import Mathlib.Data.Nat.Init

namespace GraphQL

variable {m : Type → Type}

/-! ## §1 Objects -/

/-- An object of a response: the fields that were selected, its path, and what became of
the fields. -/
structure SelectedObject (m : Type → Type) where
  selections : List Field
  path : ResponsePath
  visits : List (Visit m)

/-- The members of the object. -/
def SelectedObject.members (object : SelectedObject m) : Members :=
  assignAll [] (Visit.contributions object.visits)

namespace Completion

mutual

/-- The objects that fields were selected for in a value. Objects inside these are left
to the fields. -/
def objects (selections : List Field) : Completion m → List (SelectedObject m)
  | .plain _ => []
  | .list items => objectsOfItems selections items
  | .object path visits => [⟨selections, path, visits⟩]

/-- The objects in items. -/
def objectsOfItems (selections : List Field) : List (Completion m) → List (SelectedObject m)
  | [] => []
  | item :: rest => objects selections item ++ objectsOfItems selections rest

end

theorem objectsOfItems_eq (selections : List Field) (items : List (Completion m)) :
    objectsOfItems selections items = items.flatMap (objects selections) := by
  induction items with
  | nil => rfl
  | cons item rest ih => rw [objectsOfItems, ih, List.flatMap_cons]

end Completion

/-- The objects in the value of a field. -/
def Visit.objects : Visit m → List (SelectedObject m)
  | .called node _ _ _ completion => completion.objects node.selections
  | .unknown _ _ | .refused _ _ _ => []

/-- The fields that were selected at the top. -/
def OperationAccount.selections : OperationAccount m → List Field
  | .unsupported _ => []
  | .ran operation _ _ => operation.selections

/-- The object that the response data is. -/
def Account.root (account : Account m) : SelectedObject m :=
  ⟨account.flatMap OperationAccount.selections, [], account.top⟩

/-- All objects of a request, at every depth. -/
def Account.objects (account : Account m) : List (SelectedObject m) :=
  account.root :: account.visits.flatMap Visit.objects

/-! ## §2 Descent -/

namespace Completion

mutual

/-- What lies below a value lies below its objects. -/
theorem visits_eq (selections : List Field) : ∀ completion : Completion m,
    completion.visits =
      (completion.objects selections).flatMap fun object => Visit.allOf object.visits
  | .plain _ => rfl
  | .list items => visitsOfItems_eq_flatMap selections items
  | .object _ visits => by simp [Completion.visits, objects]

theorem visitsOfItems_eq_flatMap (selections : List Field) : ∀ items : List (Completion m),
    Completion.visitsOfItems items =
      (objectsOfItems selections items).flatMap fun object => Visit.allOf object.visits
  | [] => rfl
  | item :: rest => by
    rw [Completion.visitsOfItems, objectsOfItems, List.flatMap_append, visits_eq selections item,
      visitsOfItems_eq_flatMap selections rest]

end

end Completion

namespace Visit

theorem all_eq (visit : Visit m) :
    visit.all = visit :: visit.objects.flatMap fun object => allOf object.visits := by
  cases visit with
  | unknown node path => rfl
  | refused node path records => rfl
  | called node path notices event completion =>
    rw [Visit.all, completion.visits_eq node.selections, objects]

theorem mem_all_self (visit : Visit m) : visit ∈ visit.all := by
  rw [all_eq]
  exact List.mem_cons_self

theorem mem_allOf {visit : Visit m} {visits : List (Visit m)} :
    visit ∈ allOf visits ↔ ∃ top ∈ visits, visit ∈ top.all := by
  rw [allOf_eq, List.mem_flatMap]

theorem length_le_flatMap {α β : Type} (f : α → List β) {as : List α} {a : α} (h : a ∈ as) :
    (f a).length ≤ (as.flatMap f).length := by
  rw [List.flatMap_def]
  exact (List.sublist_flatten_of_mem (List.mem_map_of_mem h)).length_le

/-- What holds of a visit if it holds of all fields in its objects, holds of every visit. -/
theorem induction {P : Visit m → Prop}
    (step : ∀ visit, (∀ object ∈ visit.objects, ∀ field ∈ object.visits, P field) → P visit)
    (visit : Visit m) : P visit := by
  -- A field in an object has fewer visits below it than the field with the object.
  induction hsize : visit.all.length using Nat.strong_induction_on generalizing visit with
  | _ size ih =>
    refine step visit fun object hobject field hfield => ih _ ?_ field rfl
    have hobjects := length_le_flatMap (fun object => allOf object.visits) hobject
    have hfields := length_le_flatMap all hfield
    rw [← allOf_eq] at hfields
    rw [all_eq, List.length_cons] at hsize
    omega

/-- What holds of a visit and itself, and of a visit and another one below it if it holds
of a field in one of its objects and the other one, holds of a visit and all those
below it. -/
theorem descend {P : Visit m → Visit m → Prop} (self : ∀ visit, P visit visit)
    (step : ∀ visit object field below, object ∈ visit.objects → field ∈ object.visits →
      P field below → P visit below) (visit : Visit m) :
    ∀ below ∈ visit.all, P visit below := by
  refine induction (P := fun visit => ∀ below ∈ visit.all, P visit below) ?_ visit
  intro visit ih below hbelow
  rw [all_eq] at hbelow
  rcases List.mem_cons.1 hbelow with rfl | hbelow
  · exact self below
  · obtain ⟨object, hobject, hbelow⟩ := List.mem_flatMap.1 hbelow
    obtain ⟨field, hfield, hbelow⟩ := mem_allOf.1 hbelow
    exact step visit object field below hobject hfield (ih object hobject field hfield below hbelow)

/-- What is below a field in an object is below the field that holds the object. -/
theorem mem_all_of_field {visit field below : Visit m} {object : SelectedObject m}
    (hobject : object ∈ visit.objects) (hfield : field ∈ object.visits)
    (hbelow : below ∈ field.all) : below ∈ visit.all := by
  rw [all_eq]
  exact List.mem_cons_of_mem _
    (List.mem_flatMap.2 ⟨object, hobject, mem_allOf.2 ⟨field, hfield, hbelow⟩⟩)

theorem mem_all_trans {visit between below : Visit m} (hbetween : between ∈ visit.all)
    (hbelow : below ∈ between.all) : below ∈ visit.all := by
  refine descend (P := fun visit between => below ∈ between.all → below ∈ visit.all)
    (fun _ h => h) ?_ visit between hbetween hbelow
  intro visit object field between hobject hfield ih hbelow
  exact mem_all_of_field hobject hfield (ih hbelow)

end Visit

namespace Account

variable {account : Account m}

/-- What is below a field of a request is among its fields. -/
theorem mem_visits_of_mem_all {visit below : Visit m} (hvisit : visit ∈ account.visits)
    (hbelow : below ∈ visit.all) : below ∈ account.visits := by
  obtain ⟨top, htop, hvisit⟩ := Visit.mem_allOf.1 hvisit
  exact Visit.mem_allOf.2 ⟨top, htop, Visit.mem_all_trans hvisit hbelow⟩

/-- So are the fields in its objects. -/
theorem mem_visits {object : SelectedObject m} (h : object ∈ account.objects) :
    ∀ visit ∈ object.visits, visit ∈ account.visits := by
  intro visit hvisit
  rcases List.mem_cons.1 h with rfl | h
  · exact Visit.mem_allOf.2 ⟨visit, hvisit, visit.mem_all_self⟩
  · obtain ⟨holder, hholder, hobject⟩ := List.mem_flatMap.1 h
    exact mem_visits_of_mem_all hholder (Visit.mem_all_of_field hobject hvisit visit.mem_all_self)

end Account

/-! ## §3 Truth -/

/-- Every completed item stands where one was given. -/
theorem Completion.exists_index {items : List Value} {completions : List (Completion m)}
    (hlength : completions.length = items.length) {item : Completion m} (h : item ∈ completions) :
    ∃ (index : Nat) (given : Value),
      items[index]? = some given ∧ completions[index]? = some item := by
  obtain ⟨index, hindex, hget⟩ := List.mem_iff_getElem.1 h
  exact ⟨index, _, List.getElem?_eq_getElem (hlength ▸ hindex),
    List.getElem?_eq_some_iff.2 ⟨hindex, hget⟩⟩

variable [Monad m] [MonadAttach m] {scope : Scope m}

/-- The objects in the value of a field are made of visits of the selected fields. -/
theorem Completion.Tells.objects {selections : List Field} {type : TypeExpr TypeId}
    {value : Value} {path : ResponsePath} {completion : Completion m}
    (h : completion.Tells scope selections type value path) :
    ∀ object ∈ completion.objects selections, object.selections = selections ∧
      ∃ id parent, Visit.AllTell scope selections id parent object.path object.visits := by
  induction type using TypeExpr.reading generalizing value path completion with
  | nonNull inner ih =>
    cases h with
    | null => simp [Completion.objects]
    | nonNull h => exact ih h
  | list element ih =>
    cases h with
    | null => simp [Completion.objects]
    | single _ _ h => exact ih h
    | list hlength htells =>
      rename_i items completions
      intro object hobject
      rw [Completion.objects, Completion.objectsOfItems_eq, List.mem_flatMap] at hobject
      obtain ⟨item, hitem, hobject⟩ := hobject
      obtain ⟨index, given, hgiven, hcompleted⟩ := Completion.exists_index hlength hitem
      exact ih (htells index given item hgiven hcompleted) object hobject
  | named id =>
    cases h with
    | null => simp [Completion.objects]
    | leaf _ _ => simp [Completion.objects]
    | object _ _ hnodes htell =>
      intro object hobject
      rw [List.mem_singleton.1 hobject]
      exact ⟨rfl, id, value, hnodes, htell⟩

namespace Visit

variable {node : Field} {parentType : TypeId} {parent : Value} {path : ResponsePath}
  {visit : Visit m}

theorem Tells.objects (h : visit.Tells scope node parentType parent path) :
    ∀ object ∈ visit.objects, object.selections = node.selections ∧
      ∃ id value, AllTell scope node.selections id value object.path object.visits := by
  cases h with
  | unknown _ => simp [Visit.objects]
  | refused _ _ _ => simp [Visit.objects]
  | called _ _ _ hanswers =>
    cases hanswers with
    | failed _ => simp [Visit.objects, Completion.objects]
    | leaf _ => simp [Visit.objects, Completion.objects]
    | selected _ htells => exact htells.objects

/-- The visit tells what becomes of its field, in some place of a request with the scope. -/
def Told (scope : Scope m) (visit : Visit m) : Prop :=
  ∃ parentType parent, visit.Tells scope visit.node parentType parent visit.path

theorem AllTell.told {selections : List Field} {visits : List (Visit m)}
    (h : AllTell scope selections parentType parent path visits) :
    ∀ visit ∈ visits, visit.Told scope := by
  intro visit hvisit
  have htells := h.tell visit hvisit
  exact ⟨parentType, parent, by rwa [htells.path_eq]⟩

/-- What lies below a visit that tells the truth does so as well. -/
theorem Told.below (h : visit.Told scope) : ∀ below ∈ visit.all, below.Told scope := by
  intro below hbelow
  refine descend (P := fun visit below => visit.Told scope → below.Told scope) (fun _ h => h) ?_
    visit below hbelow h
  intro visit object field below hobject hfield ih h
  obtain ⟨parentType, parent, htells⟩ := h
  obtain ⟨_, id, value, htell⟩ := htells.objects object hobject
  exact ih (htell.told field hfield)

end Visit

namespace OperationAccount.Tells

variable {schema : Schema m} {options : RequestOptions} {operation : Operation}
  {account : OperationAccount m}

theorem nodes (h : account.Tells schema options operation) :
    account.visits.map Visit.node = account.selections := by
  cases h with
  | unsupported _ => rfl
  | ran _ _ htell => exact htell.nodes

theorem told (h : account.Tells schema options operation) :
    ∀ visit ∈ account.visits, ∃ scope : Scope m, scope.schema = schema ∧ visit.Told scope := by
  cases h with
  | unsupported _ => nofun
  | ran _ _ htell => exact fun visit hvisit => ⟨_, rfl, htell.told visit hvisit⟩

end OperationAccount.Tells

/-- Operations of the document are run, and no others. -/
theorem Request.mem_of_select {document : Document} {name : Option Bytes} {operation : Operation}
    (h : operation ∈ (select document name).1) : operation ∈ document.operations := by
  unfold select at h
  cases name with
  | none => exact h
  | some name =>
    cases hfound : document.operation? name with
    | none => simp [hfound] at h
    | some found =>
      simp only [hfound, List.mem_singleton] at h
      exact h ▸ List.mem_of_find?_eq_some hfound

namespace Account.Tells

variable {schema : Schema m} {options : RequestOptions} {document : Document} {response : Response}
  {events : List (Event m)} {account : Account m}
  (h : account.Tells schema options document response events)
include h

theorem exists_operation : ∃ checked, ∀ part ∈ account,
    ∃ operation ∈ document.operations, part.Tells schema checked operation := by
  obtain ⟨checked, _, hoperations⟩ := h.operations
  refine ⟨checked, fun part hpart => ?_⟩
  obtain ⟨index, hindex, rfl⟩ := List.mem_iff_getElem.1 hpart
  exact ⟨_, Request.mem_of_select (List.getElem_mem (hoperations.length_eq ▸ hindex)),
    hoperations.get (hoperations.length_eq ▸ hindex) hindex⟩

theorem top_told : ∀ visit ∈ account.top,
    ∃ scope : Scope m, scope.schema = schema ∧ visit.Told scope := by
  obtain ⟨checked, hparts⟩ := h.exists_operation
  intro visit hvisit
  obtain ⟨part, hpart, hvisit⟩ := List.mem_flatMap.1 hvisit
  obtain ⟨operation, _, htells⟩ := hparts part hpart
  exact htells.told visit hvisit

/-- All visits tell the truth. -/
theorem told : ∀ visit ∈ account.visits,
    ∃ scope : Scope m, scope.schema = schema ∧ visit.Told scope := by
  intro visit hvisit
  obtain ⟨top, htop, hvisit⟩ := Visit.mem_allOf.1 hvisit
  obtain ⟨scope, hschema, htold⟩ := h.top_told top htop
  exact ⟨scope, hschema, htold.below visit hvisit⟩

end Account.Tells

end GraphQL
