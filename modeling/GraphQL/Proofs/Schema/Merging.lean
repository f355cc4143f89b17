/-
GraphQL.Proofs.Schema.Merging — what a sequence of steps defines.

  §1 Additions  — what is added to the type of a name, and all of it together.
  §2 Types      — adding to types one after another merges the additions.
  §3 Steps      — scalars, types and roots of a whole sequence of steps.

A step adds to the first type of its name or makes a new one, so types are in
the order in which their names are first met, each with all that was added to
it. Steps for the query type add to the type whose name was chosen last before
them.
-/
import GraphQL.Schema.Definition
import Mathlib.Data.List.Induction

namespace GraphQL

/-! ## §1 Additions -/

/-- What is added to the type of a name: fields, and a description if one is given. -/
structure Addition (φ : Type) where
  name : Bytes
  description : Option Bytes
  fields : List φ

namespace Addition

variable {φ : Type}

/-- The type of a name with all that is added to it: the description given last, and all
fields in order. -/
def whole (additions : List (Addition φ)) (name : Bytes) : TypeDefinition φ where
  name := name
  description :=
    ((additions.filter (·.name == name)).filterMap (·.description)).getLast?.getD []
  fields := (additions.filter (·.name == name)).flatMap (·.fields)

/-- The types of all names, in the order in which the names are first met. -/
def merged (additions : List (Addition φ)) : List (TypeDefinition φ) :=
  (additions.map (·.name)).eraseDups.map (whole additions)

theorem whole_of_not_mem {additions : List (Addition φ)} {name : Bytes}
    (h : name ∉ additions.map (·.name)) : whole additions name = ⟨name, [], []⟩ := by
  have hnone : additions.filter (·.name == name) = [] := by
    refine List.filter_eq_nil_iff.2 fun addition haddition heq => h ?_
    rw [← beq_iff_eq.1 heq]
    exact List.mem_map_of_mem haddition
  simp [whole, hnone]

/-- One more addition extends the type of its name. -/
theorem whole_append_self (additions : List (Addition φ)) (addition : Addition φ) :
    whole (additions ++ [addition]) addition.name =
      (whole additions addition.name).extend addition.description addition.fields := by
  simp only [whole, TypeDefinition.extend, List.filter_append, List.filter_cons, beq_self_eq_true,
    if_true, List.filter_nil, List.filterMap_append, List.flatMap_append]
  cases hdescription : addition.description <;> simp [hdescription]

/-- All other types are left alone. -/
theorem whole_append_of_ne (additions : List (Addition φ)) {addition : Addition φ} {name : Bytes}
    (h : addition.name ≠ name) : whole (additions ++ [addition]) name = whole additions name := by
  simp [whole, List.filter_append, beq_eq_false_iff_ne.2 h]

end Addition

/-! ## §2 Types -/

theorem eraseDups_concat_of_mem {names : List Bytes} {name : Bytes} (h : name ∈ names) :
    (names ++ [name]).eraseDups = names.eraseDups := by
  simp [List.eraseDups_append, List.removeAll, h]

theorem eraseDups_concat_of_not_mem {names : List Bytes} {name : Bytes} (h : name ∉ names) :
    (names ++ [name]).eraseDups = names.eraseDups ++ [name] := by
  simp [List.eraseDups_append, List.removeAll, h, List.eraseDups_cons]

theorem nodup_eraseDups (names : List Bytes) : names.eraseDups.Nodup := by
  induction names using List.reverseRecOn with
  | nil => simp
  | append_singleton names name ih =>
    by_cases h : name ∈ names
    · rwa [eraseDups_concat_of_mem h]
    · rw [eraseDups_concat_of_not_mem h]
      exact List.nodup_append.2 ⟨ih, by simp, by
        rintro other hother _ hlast rfl
        rw [List.mem_singleton.1 hlast, List.mem_eraseDups] at hother
        exact h hother⟩

namespace TypeDefinition

variable {φ : Type} {make : Bytes → TypeDefinition φ} (hmake : ∀ name, (make name).name = name)
  {names : List Bytes} {name : Bytes} (description : Option Bytes) (fields : List φ)

include hmake

theorem extendIn_of_not_mem (h : name ∉ names) :
    extendIn name description fields (names.map make) =
      names.map make ++ [(TypeDefinition.mk name [] []).extend description fields] := by
  induction names with
  | nil => rfl
  | cons first rest ih =>
    obtain ⟨hfirst, hrest⟩ := not_or.1 (mt List.mem_cons.2 h)
    have hne : ((make first).name == name) = false := by
      rw [hmake, beq_eq_false_iff_ne]
      exact Ne.symm hfirst
    simp only [List.map_cons, extendIn, hne, ih hrest, List.cons_append]
    rfl

theorem extendIn_of_mem (hnames : names.Nodup) (h : name ∈ names) :
    extendIn name description fields (names.map make) =
      names.map fun other =>
        if other = name then (make other).extend description fields else make other := by
  induction names with
  | nil => cases h
  | cons first rest ih =>
    obtain ⟨hfresh, hrest⟩ := List.nodup_cons.1 hnames
    by_cases heq : first = name
    · subst heq
      have hothers : rest.map (fun other =>
          if other = first then (make other).extend description fields else make other) =
          rest.map make := by
        refine List.map_congr_left fun other hother => if_neg ?_
        rintro rfl
        exact hfresh hother
      simp only [List.map_cons, extendIn, hmake, beq_self_eq_true, if_true, hothers]
    · have hne : ((make first).name == name) = false := by rwa [hmake, beq_eq_false_iff_ne]
      have hmem : name ∈ rest := (List.mem_cons.1 h).resolve_left (Ne.symm heq)
      simp only [List.map_cons, extendIn, hne, heq, if_false, ih hrest hmem]
      rfl

end TypeDefinition

/-- One more addition is merged into the types. -/
theorem Addition.merged_concat {φ : Type} (additions : List (Addition φ))
    (addition : Addition φ) : merged (additions ++ [addition]) =
      TypeDefinition.extendIn addition.name addition.description addition.fields
        (merged additions) := by
  have hname : ∀ name, (whole additions name).name = name := fun _ => rfl
  unfold merged
  rw [List.map_append, List.map_singleton]
  by_cases hmem : addition.name ∈ additions.map (·.name)
  · rw [eraseDups_concat_of_mem hmem, TypeDefinition.extendIn_of_mem hname _ _
      (nodup_eraseDups _) (List.mem_eraseDups.2 hmem)]
    refine List.map_congr_left fun name _ => ?_
    by_cases heq : name = addition.name
    · rw [if_pos heq, heq, whole_append_self]
    · rw [if_neg heq, whole_append_of_ne _ (Ne.symm heq)]
  · rw [eraseDups_concat_of_not_mem hmem, TypeDefinition.extendIn_of_not_mem hname _ _
      (mt List.mem_eraseDups.1 hmem), List.map_append, List.map_singleton, whole_append_self,
      whole_of_not_mem hmem]
    congr 1
    refine List.map_congr_left fun name hname => whole_append_of_ne _ ?_
    rintro rfl
    exact hmem (List.mem_eraseDups.1 hname)

/-! ## §3 Steps -/

variable {m : Type → Type}

namespace DefinitionStep

/-- The scalar that the step defines. -/
def scalar? : DefinitionStep m → Option (ScalarDefinition m)
  | .scalar definition => some definition
  | _ => none

/-- What the step adds to an input object type. -/
def inputAddition? : DefinitionStep m → Option (Addition ArgumentDefinition)
  | .input name description fields => some ⟨name, description, fields⟩
  | _ => none

/-- The name that the step chooses for the type at which queries start. -/
def queryChoice? : DefinitionStep m → Option Bytes
  | .queryType name => some name
  | _ => none

/-- The name that the step chooses for the type at which mutations start. -/
def mutationChoice? : DefinitionStep m → Option Bytes
  | .mutationType name => some name
  | _ => none

/-- The step is about mutations. -/
def isMutation : DefinitionStep m → Bool
  | .mutation _ _ | .mutationType _ => true
  | _ => false

/-- The name that is chosen last for the type at which queries start. -/
def queryName (steps : List (DefinitionStep m)) : Bytes :=
  (steps.filterMap queryChoice?).getLast?.getD fallbackQueryType

/-- The name that is chosen last for the type at which mutations start. -/
def mutationName (steps : List (DefinitionStep m)) : Bytes :=
  (steps.filterMap mutationChoice?).getLast?.getD fallbackMutationType

/-- What the step adds to an object type, after other steps. -/
def objectAddition? (before : List (DefinitionStep m)) :
    DefinitionStep m → Option (Addition (FieldDefinition m))
  | .object name description fields => some ⟨name, description, fields⟩
  | .query description fields => some ⟨queryName before, description, fields⟩
  | .mutation description fields => some ⟨mutationName before, description, fields⟩
  | _ => none

/-- What the steps add to object types, after those `before`. -/
def objectAdditions : List (DefinitionStep m) → List (DefinitionStep m) →
    List (Addition (FieldDefinition m))
  | _, [] => []
  | before, step :: rest =>
    (objectAddition? before step).toList ++ objectAdditions (before ++ [step]) rest

theorem objectAdditions_concat (before steps : List (DefinitionStep m)) (step : DefinitionStep m) :
    objectAdditions before (steps ++ [step]) =
      objectAdditions before steps ++ (objectAddition? (before ++ steps) step).toList := by
  induction steps generalizing before with
  | nil => simp [objectAdditions]
  | cons first rest ih => simp [objectAdditions, ih]

end DefinitionStep

namespace Definitions

open DefinitionStep

/-- The name of the type at which queries start. -/
def queryName (definitions : Definitions m) : Bytes :=
  definitions.queryType.getD fallbackQueryType

/-- The definitions are those of the steps, merged in order. -/
structure Merges (definitions : Definitions m) (steps : List (DefinitionStep m)) : Prop where
  scalars : definitions.scalars = steps.filterMap scalar?
  objects : definitions.objects = Addition.merged (objectAdditions [] steps)
  inputs : definitions.inputs = Addition.merged (steps.filterMap inputAddition?)
  query : definitions.queryName = DefinitionStep.queryName steps
  mutation : definitions.mutationType =
    if steps.any isMutation then some (mutationName steps) else none

namespace Merges

variable {definitions : Definitions m} {steps : List (DefinitionStep m)}
  (h : definitions.Merges steps)

include h

/-- The name that a step for mutations adds to, chosen or not. -/
theorem mutationName_eq :
    definitions.mutationType.getD fallbackMutationType = mutationName steps := by
  rw [h.mutation]
  by_cases hany : steps.any isMutation = true
  · rw [if_pos hany]
    rfl
  · have hnone : steps.filterMap mutationChoice? = [] := by
      refine List.filterMap_eq_nil_iff.2 fun step hstep => ?_
      cases step with
      | mutationType name => exact absurd (List.any_eq_true.2 ⟨_, hstep, rfl⟩) hany
      | _ => rfl
    rw [if_neg hany, mutationName, hnone]
    rfl

theorem objects_add (step : DefinitionStep m) : (definitions.add step).objects =
    Addition.merged (objectAdditions [] (steps ++ [step])) := by
  rw [objectAdditions_concat, List.nil_append]
  cases step with
  | object name description fields =>
    simp only [Definitions.add, Definitions.object, h.objects, objectAddition?, Option.toList,
      Addition.merged_concat]
  | query description fields =>
    have hname : definitions.queryType.getD fallbackQueryType = _ := h.query
    simp only [Definitions.add, Definitions.query, Definitions.object, h.objects, hname,
      objectAddition?, Option.toList, Addition.merged_concat]
  | mutation description fields =>
    simp only [Definitions.add, Definitions.mutation, Definitions.object, h.objects,
      h.mutationName_eq, objectAddition?, Option.toList, Addition.merged_concat]
  | queryType _ | mutationType _ | input _ _ _ | scalar _ =>
    simp only [Definitions.add, Definitions.input, h.objects, objectAddition?, Option.toList,
      List.append_nil]

theorem queryName_add (step : DefinitionStep m) : (definitions.add step).queryName =
    DefinitionStep.queryName (steps ++ [step]) := by
  have hname : definitions.queryType.getD fallbackQueryType = _ := h.query
  unfold DefinitionStep.queryName at *
  rw [List.filterMap_append]
  cases step with
  | queryType name => simp [Definitions.add, queryName, queryChoice?]
  | query description fields =>
    simpa [Definitions.add, Definitions.query, Definitions.object, queryName, queryChoice?]
      using hname
  | object _ _ _ | mutation _ _ | mutationType _ | input _ _ _ | scalar _ =>
    simpa [Definitions.add, Definitions.object, Definitions.mutation, Definitions.input, queryName,
      queryChoice?] using hname

theorem mutationType_add (step : DefinitionStep m) : (definitions.add step).mutationType =
    if (steps ++ [step]).any isMutation then some (mutationName (steps ++ [step])) else none := by
  have hname := h.mutationName_eq
  have htype := h.mutation
  unfold mutationName at *
  rw [List.filterMap_append, List.any_append]
  cases step with
  | mutationType name => simp [Definitions.add, isMutation, mutationChoice?]
  | mutation description fields =>
    simpa [Definitions.add, Definitions.mutation, Definitions.object, isMutation, mutationChoice?]
      using hname
  | object _ _ _ | query _ _ | queryType _ | input _ _ _ | scalar _ =>
    simpa [Definitions.add, Definitions.object, Definitions.query, Definitions.input, isMutation,
      mutationChoice?] using htype

/-- One more step is merged as well. -/
theorem add (step : DefinitionStep m) : (definitions.add step).Merges (steps ++ [step]) where
  scalars := by
    rw [List.filterMap_append, ← h.scalars]
    cases step <;> simp [Definitions.add, Definitions.object, Definitions.query,
      Definitions.mutation, Definitions.input, scalar?, List.filterMap]
  objects := h.objects_add step
  inputs := by
    have hinputs := h.inputs
    rw [List.filterMap_append]
    cases step with
    | input name description fields =>
      simp [Definitions.add, Definitions.input, hinputs, inputAddition?, Addition.merged_concat,
        List.filterMap]
    | object _ _ _ | query _ _ | mutation _ _ | queryType _ | mutationType _ | scalar _ =>
      simpa [Definitions.add, Definitions.object, Definitions.query, Definitions.mutation,
        inputAddition?, List.filterMap] using hinputs
  query := h.queryName_add step
  mutation := h.mutationType_add step

end Merges

/-- The definitions that a sequence of steps leads to are the steps, merged. -/
theorem merges_ofSteps (steps : List (DefinitionStep m)) : (ofSteps steps).Merges steps := by
  induction steps using List.reverseRecOn with
  | nil => exact ⟨rfl, rfl, rfl, rfl, rfl⟩
  | append_singleton steps step ih =>
    rw [ofSteps, List.foldl_append]
    exact ih.add step

end Definitions

end GraphQL
