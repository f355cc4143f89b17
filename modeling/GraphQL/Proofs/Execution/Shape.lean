/-
GraphQL.Proofs.Execution.Shape — responses have the shape of what was selected.

  §1 Shapes    — values that are made of selected fields.
  §2 Paths     — a path into such a value goes through selected fields.
  §3 Fields    — the values of fields have their shape.
  §4 Requests  — so do all values in a response.

A resolver may give any value: one with too many or too few lists, a scalar for
an object, or an object with members that nobody asked for. Where the field has
selections and its type names an object type, nothing of the given value is
left but its lists and nulls. The members are those of selected fields, each
with what its own resolver gave.
-/
import GraphQL.Proofs.Execution.Accounting
import GraphQL.Proofs.Execution.Objects
import GraphQL.Proofs.Value.Equality
import GraphQL.Proofs.Value.Members
import GraphQL.Proofs.Value.Positions

namespace GraphQL

open MonadAttach (CanReturn)

variable {m : Type → Type}

/-! ## §1 Shapes -/

/-- The call is one of the field that is selected from a parent value. -/
structure Event.Calls (schema : Schema m) (node : Field) (parentType : TypeId) (parent : Value)
    (event : Event m) : Prop where
  field : schema.field? parentType node.name = some event.call.field
  parent : event.call.parent = parent

mutual

/-- The value has the shape of fields selected from a given value of the type. The calls of
their resolvers are among the events. -/
inductive Shaped (schema : Schema m) (events : List (Event m)) :
    List Field → TypeExpr TypeId → Value → Value → Prop
  /-- Null stays null, also where it is an item of a list. -/
  | null {selections : List Field} {type : TypeExpr TypeId} :
    Shaped schema events selections type .null .null
  | nonNull {selections : List Field} {inner : TypeExpr TypeId} {given value : Value} :
    Shaped schema events selections inner.unmarked given value →
    Shaped schema events selections (.nonNull inner) given value
  /-- A list has as many items, each with its own shape. -/
  | list {selections : List Field} {element : TypeExpr TypeId} {items values : List Value} :
    values.length = items.length →
    (∀ (index : Nat) (item value : Value), items[index]? = some item →
      values[index]? = some value → Shaped schema events selections element item value) →
    Shaped schema events selections (.list element) (.list items) (.list values)
  /-- What is no list has the shape of an item. -/
  | single {selections : List Field} {element : TypeExpr TypeId} {given value : Value} :
    given ≠ .null → given.isList = false → Shaped schema events selections element given value →
    Shaped schema events selections (.list element) given value
  /-- Any other value is an object, whatever was given. -/
  | object {selections : List Field} {id : TypeId} {given : Value} {members : Members} :
    given ≠ .null → MembersShaped schema events selections id given members →
    Shaped schema events selections (.named id) given (.object members)

/-- All members are those of selected fields. -/
inductive MembersShaped (schema : Schema m) (events : List (Event m)) :
    List Field → TypeId → Value → Members → Prop
  | nil {selections : List Field} {parentType : TypeId} {parent : Value} :
    MembersShaped schema events selections parentType parent []
  | cons {selections : List Field} {parentType : TypeId} {parent value : Value} {node : Field}
      {rest : Members} :
    node ∈ selections → FieldShaped schema events node parentType parent value →
    MembersShaped schema events selections parentType parent rest →
    MembersShaped schema events selections parentType parent ((node.responseKey, value) :: rest)

/-- The value is one of a field that is selected from a parent value. -/
inductive FieldShaped (schema : Schema m) (events : List (Event m)) :
    Field → TypeId → Value → Value → Prop
  | failed {node : Field} {parentType : TypeId} {parent : Value} {event : Event m} :
    event ∈ events → event.Calls schema node parentType parent →
    (∀ given, event.answer ≠ .ok given) →
    FieldShaped schema events node parentType parent .null
  /-- Without selections, or at a type that is no object type, a value stays as it is. -/
  | leaf {node : Field} {parentType : TypeId} {parent given : Value} {event : Event m} :
    event ∈ events → event.Calls schema node parentType parent → event.answer = .ok given →
    node.selections = [] ∨ schema.isObjectType event.call.field.type.leaf = false →
    FieldShaped schema events node parentType parent given
  | selected {node : Field} {parentType : TypeId} {parent given value : Value} {event : Event m} :
    event ∈ events → event.Calls schema node parentType parent → event.answer = .ok given →
    node.selections ≠ [] → schema.isObjectType event.call.field.type.leaf = true →
    Shaped schema events node.selections event.call.field.type given value →
    FieldShaped schema events node parentType parent value

end

variable {schema : Schema m} {events : List (Event m)} {selections : List Field}

theorem MembersShaped.of_forall {parentType : TypeId} {parent : Value} {members : Members}
    (h : ∀ member ∈ members, ∃ node ∈ selections, member.1 = node.responseKey ∧
      FieldShaped schema events node parentType parent member.2) :
    MembersShaped schema events selections parentType parent members := by
  induction members with
  | nil => exact .nil
  | cons member rest ih =>
    obtain ⟨⟨node, hnode, hkey, hshaped⟩, hrest⟩ := List.forall_mem_cons.1 h
    obtain ⟨key, value⟩ := member
    cases hkey
    exact .cons hnode hshaped (ih hrest)

theorem MembersShaped.exists_node {parentType : TypeId} {parent : Value} {members : Members}
    (h : MembersShaped schema events selections parentType parent members) :
    ∀ member ∈ members, ∃ node ∈ selections, member.1 = node.responseKey ∧
      FieldShaped schema events node parentType parent member.2 := by
  induction members with
  | nil => simp
  | cons member rest ih =>
    cases h with
    | cons hnode hshaped hrest =>
      exact List.forall_mem_cons.2 ⟨⟨_, hnode, rfl, hshaped⟩, ih hrest⟩

/-- Of null only null is made. -/
theorem Shaped.eq_null {type : TypeExpr TypeId} {value : Value}
    (h : Shaped schema events selections type .null value) : value = .null := by
  induction type using TypeExpr.reading with
  | nonNull inner ih =>
    cases h with
    | null => rfl
    | nonNull h => exact ih h
  | list element ih =>
    cases h with
    | null => rfl
    | single hnull _ _ => exact absurd rfl hnull
  | named id =>
    cases h with
    | null => rfl
    | object hnull _ => exact absurd rfl hnull

/-! ## §2 Paths -/

/-- The keys lead through selected fields, until they come to a field without selections or
one of a type that is no object type. -/
inductive KeysSelected (schema : Schema m) : TypeId → List Field → List Bytes → Prop
  | nil {id : TypeId} {selections : List Field} : KeysSelected schema id selections []
  | leaf {id : TypeId} {selections : List Field} {node : Field} {field : FieldType m}
      {rest : List Bytes} :
    node ∈ selections → schema.field? id node.name = some field →
    node.selections = [] ∨ schema.isObjectType field.type.leaf = false →
    KeysSelected schema id selections (node.responseKey :: rest)
  | cons {id : TypeId} {selections : List Field} {node : Field} {field : FieldType m}
      {rest : List Bytes} :
    node ∈ selections → schema.field? id node.name = some field →
    KeysSelected schema field.type.leaf node.selections rest →
    KeysSelected schema id selections (node.responseKey :: rest)

/-- Every path into a shaped value leads through selected fields. -/
theorem Shaped.keysSelected {path : ResponsePath} {type : TypeExpr TypeId}
    {given value part : Value} (h : Shaped schema events selections type given value)
    (hpart : value.at? path = some part) : KeysSelected schema type.leaf selections path.keys := by
  induction path generalizing selections type given value with
  | nil => exact .nil
  | cons segment rest ih =>
    rw [Value.at?_cons] at hpart
    obtain ⟨child, hchild, hrest⟩ := Option.bind_eq_some_iff.1 hpart
    clear hpart
    -- Wrappers of the type that are no lists in the value leave the path as it is.
    induction type using TypeExpr.reading generalizing given with
    | nonNull inner ihtype =>
      cases h with
      | null => cases segment <;> cases hchild
      | nonNull h => exact inner.leaf_unmarked ▸ ihtype h
    | list element ihtype =>
      cases h with
      | null => cases segment <;> cases hchild
      | single _ _ h => exact ihtype h
      | list hlength hitems =>
        rename_i items values
        cases segment with
        | key name => cases hchild
        | index position =>
          obtain ⟨hposition, _⟩ := List.getElem?_eq_some_iff.1 hchild
          obtain ⟨item, hitem⟩ : ∃ item, items[position]? = some item :=
            ⟨_, List.getElem?_eq_getElem (hlength ▸ hposition)⟩
          have hkeys := ih (hitems position item child hitem hchild) hrest
          exact hkeys
    | named id =>
      cases h with
      | null => cases segment <;> cases hchild
      | object _ hmembers =>
        cases segment with
        | index position => cases hchild
        | key name =>
          obtain ⟨node, hnode, hkey, hshaped⟩ :=
            hmembers.exists_node (name, child) (mem_of_lookup hchild)
          cases hkey
          cases hshaped with
          | failed _ hcalls _ =>
            refine .cons hnode hcalls.field ?_
            cases rest with
            | nil => exact .nil
            | cons next rest => cases next <;> cases hrest
          | leaf _ hcalls _ hleaf => exact .leaf hnode hcalls.field hleaf
          | selected _ hcalls _ _ _ hshaped => exact .cons hnode hcalls.field (ih hshaped hrest)

/-! ## §3 Fields -/

variable [Monad m] [MonadAttach m] {scope : Scope m}

namespace Completion.Tells

variable {type : TypeExpr TypeId} {value : Value} {path : ResponsePath} {completion : Completion m}

/-- At a type that is no object type, a value stays as it is. -/
theorem value_eq (h : completion.Tells scope selections type value path)
    (hleaf : scope.schema.isObjectType type.leaf = false) : completion.value = value := by
  induction type using TypeExpr.reading generalizing value path completion with
  | nonNull inner ih =>
    cases h with
    | null => rfl
    | nonNull h => exact ih h (inner.leaf_unmarked ▸ hleaf)
  | list element ih =>
    cases h with
    | null => rfl
    | single _ _ h => exact ih h hleaf
    | list hlength htells =>
      rw [Completion.value, Completion.values_eq]
      refine congrArg _ (List.ext_getElem (by simpa using hlength) fun index hindex hitem => ?_)
      rw [List.getElem_map]
      exact ih (htells index _ _ (List.getElem?_eq_getElem hitem)
        (List.getElem?_eq_getElem (by simpa using hindex))) hleaf
  | named id =>
    cases h with
    | null => rfl
    | leaf _ _ => rfl
    | object _ hobject _ _ => cases hobject.symm.trans hleaf

/-- A completed value has its shape if the fields in it have theirs. -/
theorem shaped (h : completion.Tells scope selections type value path)
    (hobject : scope.schema.isObjectType type.leaf = true)
    (hfields : ∀ object ∈ completion.objects selections, ∀ visit ∈ object.visits,
      ∀ parentType parent path, visit.Tells scope visit.node parentType parent path →
      ∀ value, visit.value? = some value →
      FieldShaped scope.schema events visit.node parentType parent value) :
    Shaped scope.schema events selections type value completion.value := by
  induction type using TypeExpr.reading generalizing value path completion with
  | nonNull inner ih =>
    cases h with
    | null => exact .null
    | nonNull h => exact .nonNull (ih h (inner.leaf_unmarked ▸ hobject) hfields)
  | list element ih =>
    cases h with
    | null => exact .null
    | single hnull hlist h => exact .single hnull hlist (ih h hobject hfields)
    | list hlength htells =>
      rename_i items completions
      rw [Completion.value, Completion.values_eq]
      refine .list (by simpa using hlength) fun index item value hitem hvalue => ?_
      obtain ⟨completed, hcompleted, rfl⟩ := by simpa using hvalue
      refine ih (htells index item completed hitem hcompleted) hobject fun object hobject => ?_
      refine hfields object ?_
      rw [Completion.objects, Completion.objectsOfItems_eq]
      exact List.mem_flatMap.2 ⟨completed, List.mem_of_getElem? hcompleted, hobject⟩
  | named id =>
    cases h with
    | null => exact .null
    | leaf _ hleaf => cases hobject.symm.trans hleaf
    | object hnull _ hnodes htell =>
      rename_i visits
      refine .object hnull (.of_forall fun member hmember => ?_)
      rcases mem_of_mem_assignAll hmember with hnone | hmember
      · cases hnone
      · rw [Visit.contributions_eq, List.mem_filterMap] at hmember
        obtain ⟨visit, hvisit, hmember⟩ := hmember
        obtain ⟨given, hgiven, rfl⟩ := Option.map_eq_some_iff.1 hmember
        refine ⟨visit.node, hnodes ▸ List.mem_map_of_mem hvisit, rfl, ?_⟩
        exact hfields _ List.mem_cons_self visit hvisit id value _ (htell visit hvisit) given hgiven

end Completion.Tells

/-- The value of a field has its shape, the calls below it being among the events. -/
theorem Visit.shaped (visit : Visit m) (hevents : ∀ below ∈ visit.all, ∀ event ∈ below.event?,
    event ∈ events) : ∀ {node : Field} {parentType : TypeId} {parent : Value} {path : ResponsePath},
    visit.Tells scope node parentType parent path → ∀ value, visit.value? = some value →
    FieldShaped scope.schema events node parentType parent value := by
  -- The induction descends from the visit to the fields in its objects.
  induction visit using Visit.induction with
  | step visit ih =>
    intro node parentType parent path h value hvalue
    have hown := hevents visit visit.mem_all_self
    cases h with
    | unknown _ => cases hvalue
    | refused _ _ _ => cases hvalue
    | @called _ _ _ _ field _ _ _ hfield _ _ hanswers =>
      cases hvalue
      cases hanswers with
      | failed hfailed => exact .failed (hown _ rfl) ⟨hfield, rfl⟩ hfailed
      | leaf hnone => exact .leaf (hown _ rfl) ⟨hfield, rfl⟩ rfl (.inl hnone)
      | selected hsome htells =>
        cases hobject : scope.schema.isObjectType field.type.leaf with
        | false =>
          rw [htells.value_eq hobject]
          exact .leaf (hown _ rfl) ⟨hfield, rfl⟩ rfl (.inr hobject)
        | true =>
          refine .selected (hown _ rfl) ⟨hfield, rfl⟩ rfl hsome hobject
            (htells.shaped hobject fun object hmem field hfield _ _ _ htells value hvalue => ?_)
          exact ih object hmem field hfield
            (fun below hbelow => hevents below (mem_all_of_field hmem hfield hbelow))
            htells value hvalue

/-! ## §4 Requests -/

/-- The value of a field with selections whose type names an object type. It is null if the
resolver gave none or null, it has the shape of what was given otherwise, and whatever
is found in it stands under selected keys. -/
structure Visit.Shapely (schema : Schema m) (events : List (Event m)) (visit : Visit m)
    (event : Event m) (value : Value) : Prop where
  failed : (∀ given, event.answer ≠ .ok given) → value = .null
  null : event.answer = .ok .null → value = .null
  shaped : ∀ given, event.answer = .ok given →
    Shaped schema events visit.node.selections event.call.field.type given value
  selected : ∀ path part, value.at? path = some part →
    KeysSelected schema event.call.field.type.leaf visit.node.selections path.keys

/-- The call of a visited field is the one that its value is made from. -/
theorem Visit.Tells.shapely {node : Field} {parentType : TypeId} {parent : Value}
    {path : ResponsePath} {visit : Visit m} (h : visit.Tells scope node parentType parent path)
    (hevents : ∀ below ∈ visit.all, ∀ event ∈ below.event?, event ∈ events) {event : Event m}
    {value : Value} (hevent : visit.event? = some event) (hvalue : visit.value? = some value)
    (hselections : visit.node.selections ≠ [])
    (hobject : scope.schema.isObjectType event.call.field.type.leaf = true) :
    visit.Shapely scope.schema events event value := by
  cases h with
  | unknown _ => cases hvalue
  | refused _ _ _ => cases hvalue
  | called _ _ _ hanswers =>
    cases hevent
    cases hvalue
    cases hanswers with
    | failed hfailed =>
      refine ⟨fun _ => rfl, fun _ => rfl, fun given hgiven => absurd hgiven (hfailed given), ?_⟩
      intro path part hpart
      cases path with
      | nil => exact .nil
      | cons segment rest => cases segment <;> cases hpart
    | leaf hnone => exact absurd hnone hselections
    | selected _ htells =>
      have hshaped := htells.shaped hobject fun object hmem field hfield _ _ _ htells =>
        field.shaped (fun below hbelow => hevents below (mem_all_of_field hmem hfield hbelow))
          htells
      refine ⟨fun hfailed => absurd rfl (hfailed _), ?_, ?_, fun _ _ => hshaped.keysSelected⟩
      · intro hnull
        cases hnull
        exact hshaped.eq_null
      · intro given hgiven
        cases hgiven
        exact hshaped

/-- Tracing leaves a request as it is, and in every response the value of a field that was
called has the shape of the selections of the field, if it has any and its type names
an object type. The calls that its members come from are among those that were made. -/
theorem Request.runDocument_shaped [LawfulMonad m] [LawfulMonadAttach m] [MonadLog m]
    (schema : Schema m) (options : RequestOptions) (document : Document) :
    Prod.fst <$> (runDocument (Hosting.tracing.schema schema) options document).run.run [] =
        (runDocument schema options document).run ∧
      ∀ response events, CanReturn
        ((runDocument (Hosting.tracing.schema schema) options document).run.run [])
          (.ok response, events) →
        ∃ account : Account m, account.Tells schema options document response events ∧
          ∀ visit ∈ account.visits, ∀ event value, visit.event? = some event →
            visit.value? = some value → visit.node.selections ≠ [] →
            schema.isObjectType event.call.field.type.leaf = true →
            visit.Shapely schema events event value := by
  constructor
  · exact Hosting.simulation_tracing.runDocument schema options document []
  · intro response events hresponse
    obtain ⟨account, htells⟩ := exists_account schema options hresponse
    refine ⟨account, htells, fun visit hvisit event value hevent hvalue hselections hobject => ?_⟩
    obtain ⟨scope, rfl, parentType, parent, hvisitTells⟩ := htells.told visit hvisit
    have hevents : ∀ below ∈ visit.all, ∀ event ∈ below.event?, event ∈ events := by
      intro below hbelow event hevent
      rw [htells.events]
      exact List.mem_filterMap.2 ⟨below, Account.mem_visits_of_mem_all hvisit hbelow, hevent⟩
    exact hvisitTells.shapely hevents hevent hvalue hselections hobject

/-- A schema whose query gives items of many forms, one of them with a member that no field
has. -/
def Schema.leaking : Schema Id where
  types := Build.builtInTypes ++ [
    .of (utf8 "Item") [] (.object [
      ⟨utf8 "name", .named 0, [], memberResolver (utf8 "name"), none, []⟩]),
    .of (utf8 "Query") [] (.object [
      ⟨utf8 "items", .list (.named 5), [], fun _ _ _ => .ok (.list [
        .object [(utf8 "name", .string (utf8 "one")), (utf8 "secret", .int 1)], .null, .int 2,
        .list [.int 3]]), none, []⟩])]
  query := 6
  mutation := none

/-- A query for the names of the items. -/
def Document.naming : Document :=
  ⟨[⟨.query, none, [], [.plain (utf8 "items") [.plain (utf8 "name") []]], ⟨1, 1⟩⟩]⟩

/-- The names, with a null where there was one. -/
def Response.named : Response :=
  ⟨[(utf8 "items", .list [.object [(utf8 "name", .string (utf8 "one"))], .null,
    .object [(utf8 "name", .null)], .object [(utf8 "name", .null)]])], []⟩

/-- Nothing of the items is left but the null and the name that is asked for. -/
theorem Request.runDocument_shaped_leaking :
    let traced := ((runDocument (Hosting.tracing.schema Schema.leaking) .plain
      .naming).run.run []).run
    traced.1 = .ok .named ∧
      ∃ account : Account Id, account.Tells Schema.leaking .plain .naming .named traced.2 ∧
        ∀ visit ∈ account.visits, ∀ event value, visit.event? = some event →
          visit.value? = some value → visit.node.selections ≠ [] →
          Schema.leaking.isObjectType event.call.field.type.leaf = true →
          visit.Shapely Schema.leaking traced.2 event value := by
  have hresponse : ((runDocument (Hosting.tracing.schema Schema.leaking) .plain
      .naming).run.run []).run.1 = .ok .named := by decide +kernel
  exact ⟨hresponse, (runDocument_shaped Schema.leaking .plain .naming).2 .named _
    (Prod.ext hresponse rfl)⟩

end GraphQL
