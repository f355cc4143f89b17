/-
GraphQL.Proofs.Execution.Placement — error records point to the right place.

  §1 Records    — records about a field have its path and one of its places.
  §2 Nodes      — the field that keys lead to in an operation.
  §3 Objects    — an object stands in the value of its field.
  §4 Fields     — where a field stands in the response and in the operation.
  §5 Requests   — every record with a path.

Paths are not taken from the data: they are put together on the way down, while
the data is made on the way back. That a path leads to the right part of the
data is proved by going down through the account, where the path of every
field and the object that holds it are seen together. Fields that share a key
would hide each other, so the keys of siblings differ.
-/
import GraphQL.Proofs.Execution.Responses
import GraphQL.Proofs.Value.Equality
import GraphQL.Proofs.Value.Members
import GraphQL.Proofs.Value.Positions
import Mathlib.Data.List.Nodup

namespace GraphQL

open MonadAttach (CanReturn)
open LawfulMonadAttach (canReturn_bind_imp' canReturn_map_imp' eq_of_canReturn_pure)

variable {m : Type → Type} [Monad m] [MonadAttach m]

/-! ## §1 Records -/

section Records

variable [LawfulMonad m] [LawfulMonadAttach m] {schema : Schema m} {supplied : Value}

theorem VariableDefinition.path_of_bind {definition : VariableDefinition} {value : Option Value}
    {errors : List ErrorRecord} (h : CanReturn (definition.bind schema supplied) (value, errors)) :
    ∀ record ∈ errors, record.path = none := by
  have hsettled : ∀ coerced : Coerced, definition.settle coerced = (value, errors) →
      ∀ record ∈ errors, record.path = none := by
    intro coerced heq record hrecord
    cases heq
    obtain ⟨message, _, rfl⟩ := List.mem_map.1 hrecord
    rfl
  unfold bind at h
  split at h
  · cases eq_of_canReturn_pure h
    intro record hrecord
    rw [List.mem_singleton.1 hrecord]
    rfl
  · unfold bindAt at h
    split at h
    · obtain ⟨coerced, _, heq⟩ := canReturn_map_imp' h
      exact hsettled coerced heq
    · obtain ⟨coerced, _, heq⟩ := canReturn_map_imp' h
      exact hsettled coerced heq
    · split at h
      · cases eq_of_canReturn_pure h
        intro record hrecord
        rw [List.mem_singleton.1 hrecord]
        rfl
      · cases eq_of_canReturn_pure h
        nofun

/-- Records about variables have no path. -/
theorem VariableBindings.path_of_errors {definitions : List VariableDefinition}
    {bound : VariableBindings} (h : CanReturn (ofDefinitions schema supplied definitions) bound) :
    ∀ record ∈ bound.errors, record.path = none := by
  obtain ⟨results, -, hresults, rfl⟩ := exists_gathered h
  intro record hrecord
  obtain ⟨result, hresult, hrecord⟩ := List.mem_flatMap.1 hrecord
  exact VariableDefinition.path_of_bind (hresults result hresult) record hrecord

omit [Monad m] [MonadAttach m] [LawfulMonad m] [LawfulMonadAttach m] in
/-- So have records about an operation that is not there. -/
theorem Request.path_of_select {document : Document} {name : Option Bytes} {record : ErrorRecord}
    (h : record ∈ (select document name).2.errors) : record.path = none := by
  cases name with
  | none => cases h
  | some name =>
    simp only [select] at h
    split at h
    · cases h
    · rw [List.mem_singleton.1 h]

/-- Records about a field have its path and one of its places. -/
theorem Visit.Tells.placedIn {scope : Scope m} {node : Field} {parentType : TypeId} {parent : Value}
    {path : ResponsePath} {visit : Visit m} (h : visit.Tells scope node parentType parent path) :
    ∀ record ∈ visit.records, record.PlacedIn node path := by
  intro record hrecord
  cases h with
  | unknown _ =>
    rw [List.mem_singleton.1 hrecord]
    exact ErrorRecord.placedIn_own
  | refused _ hverdict _ => exact ArgumentVerdict.placedIn hverdict record hrecord
  | called _ hverdict _ _ =>
    rcases List.mem_append.1 hrecord with hnotice | hfailure
    · rcases List.mem_append.1 hnotice with hargument | hdeprecated
      · exact ArgumentVerdict.placedIn hverdict record hargument
      · split at hdeprecated
        · cases hdeprecated
        · rw [List.mem_singleton.1 hdeprecated]
          exact ErrorRecord.placedIn_own
    · obtain ⟨message, _, rfl⟩ := Option.map_eq_some_iff.1 (Option.mem_toList.1 hfailure)
      exact ErrorRecord.placedIn_own

omit [LawfulMonad m] [LawfulMonadAttach m] in
/-- A record about the answer of a resolver stands for the value null. -/
theorem Visit.Tells.value_of_failure {scope : Scope m} {node : Field} {parentType : TypeId}
    {parent : Value} {path : ResponsePath} {visit : Visit m}
    (h : visit.Tells scope node parentType parent path) (hfailure : visit.failure?.isSome = true) :
    visit.value? = some .null := by
  cases h with
  | unknown _ => cases hfailure
  | refused _ _ _ => cases hfailure
  | called _ _ _ hanswers =>
    cases hanswers with
    | failed _ => rfl
    | leaf _ => cases hfailure
    | selected _ _ => cases hfailure

end Records

/-! ## §2 Nodes -/

/-- The keys lead to the field, each to one of the fields selected so far. -/
inductive NodeAt : List Field → List Bytes → Field → Prop
  | here {selections : List Field} {node : Field} :
    node ∈ selections → NodeAt selections [node.responseKey] node
  | within {selections : List Field} {node below : Field} {rest : List Bytes} :
    node ∈ selections → NodeAt node.selections rest below →
    NodeAt selections (node.responseKey :: rest) below

/-- In every selection set, the fields have different response keys. -/
def SiblingsDiffer (selections : List Field) : Prop :=
  (selections.map Field.responseKey).Nodup ∧
    ∀ field ∈ selections, ∀ node ∈ field.nodes, (node.selections.map Field.responseKey).Nodup

instance (selections : List Field) : Decidable (SiblingsDiffer selections) :=
  inferInstanceAs (Decidable (_ ∧ _))

theorem SiblingsDiffer.below {selections : List Field} (h : SiblingsDiffer selections)
    {node : Field} (hnode : node ∈ selections) : SiblingsDiffer node.selections := by
  have hnodes := h.2 node hnode
  rw [Field.forall_nodes] at hnodes
  exact hnodes

namespace NodeAt

variable {selections : List Field} {keys : List Bytes} {node other child : Field}

/-- From a field the key of a selected one leads on to it. -/
theorem append (h : NodeAt selections keys node) (hchild : child ∈ node.selections) :
    NodeAt selections (keys ++ [child.responseKey]) child := by
  induction h with
  | here hnode => exact .within hnode (.here hchild)
  | within hnode _ ih => exact .within hnode (ih hchild)

/-- The first key is that of a selected field, and the others lead on from there. -/
theorem exists_first (h : NodeAt selections keys node) :
    ∃ first ∈ selections, ∃ rest, keys = first.responseKey :: rest ∧
      ((rest = [] ∧ node = first) ∨ NodeAt first.selections rest node) := by
  cases h with
  | here hnode => exact ⟨node, hnode, [], rfl, .inl ⟨rfl, rfl⟩⟩
  | within hnode hrest => exact ⟨_, hnode, _, rfl, .inr hrest⟩

theorem keys_ne_nil (h : NodeAt selections keys node) : keys ≠ [] := by
  cases h <;> simp

/-- Keys lead to one field at most. -/
theorem unique (hdiffer : SiblingsDiffer selections) (h : NodeAt selections keys node)
    (hother : NodeAt selections keys other) : node = other := by
  induction keys generalizing selections with
  | nil => exact absurd rfl h.keys_ne_nil
  | cons key rest ih =>
    obtain ⟨first, hfirst, _, hkeys, hnode⟩ := h.exists_first
    obtain ⟨second, hsecond, _, hotherKeys, hother⟩ := hother.exists_first
    cases hkeys
    obtain ⟨hkey, rfl⟩ := List.cons.inj hotherKeys
    obtain rfl : first = second := List.inj_on_of_nodup_map hdiffer.1 hfirst hsecond hkey
    rcases hnode with ⟨rfl, rfl⟩ | hnode
    · rcases hother with ⟨_, rfl⟩ | hother
      · rfl
      · exact absurd rfl hother.keys_ne_nil
    · rcases hother with ⟨rfl, _⟩ | hother
      · exact absurd rfl hnode.keys_ne_nil
      · exact ih (hdiffer.below hfirst) hnode hother

end NodeAt

/-! ## §3 Objects -/

/-- An object in a completed value stands some indices below it. -/
theorem Completion.Tells.at?_objects {scope : Scope m} {selections : List Field}
    {type : TypeExpr TypeId} {value : Value} {path : ResponsePath} {completion : Completion m}
    (h : completion.Tells scope selections type value path) :
    ∀ object ∈ completion.objects selections, ∃ rest : ResponsePath, rest.keys = [] ∧
      object.path = path ++ rest ∧ completion.value.at? rest = some (.object object.members) := by
  induction type using TypeExpr.reading generalizing value path completion with
  | nonNull inner ih =>
    cases h with
    | null => simp [Completion.objects]
    | nonNull h => exact ih h
  | list element ih =>
    cases h with
    | null => simp [Completion.objects]
    | single _ _ h => exact ih h
    | list hlength htells =>
      rename_i items completions
      intro object hobject
      rw [Completion.objects, Completion.objectsOfItems_eq, List.mem_flatMap] at hobject
      obtain ⟨item, hitem, hobject⟩ := hobject
      obtain ⟨index, given, hgiven, hcompleted⟩ := Completion.exists_index hlength hitem
      obtain ⟨rest, hkeys, hpath, hfound⟩ :=
        ih (htells index given item hgiven hcompleted) object hobject
      refine ⟨.index index :: rest, hkeys, by simp [hpath], ?_⟩
      rw [Completion.value, Completion.values_eq, Value.at?_cons, Value.step?_list,
        List.getElem?_map, hcompleted]
      exact hfound
  | named id =>
    cases h with
    | null => simp [Completion.objects]
    | leaf _ _ => simp [Completion.objects]
    | object _ _ _ _ =>
      intro object hobject
      rw [List.mem_singleton.1 hobject]
      exact ⟨[], rfl, (List.append_nil _).symm, rfl⟩

namespace SelectedObject

variable {schema : Schema m} {object : SelectedObject m}

/-- Where keys differ, each field that was called has its value under its key, and no
other field has one. -/
theorem Exact.lookup_eq (h : object.Exact schema)
    (hdiffer : (object.selections.map Field.responseKey).Nodup) :
    ∀ visit ∈ object.visits, object.members.lookup visit.key = visit.value? := by
  have hkeys : (object.visits.map Visit.key).Nodup := by
    have hmap : object.visits.map Visit.key =
        (object.visits.map Visit.node).map Field.responseKey := by
      rw [List.map_map]
      rfl
    rwa [hmap, h.nodes]
  intro visit hvisit
  cases hvalue : visit.value? with
  | some value =>
    obtain ⟨before, later, hsplit⟩ := List.append_of_mem hvisit
    refine h.last before visit later value hsplit hvalue fun other hother _ hkey => ?_
    rw [hsplit, List.map_append, List.map_cons] at hkeys
    have hfresh := (List.nodup_cons.1 (List.nodup_append.1 hkeys).2.1).1
    exact hfresh (List.mem_map.2 ⟨other, hother, hkey⟩)
  | none =>
    refine lookup_eq_none_of_keys fun hkey => ?_
    rw [h.keys, List.mem_eraseDups] at hkey
    obtain ⟨other, hother, hsame⟩ := List.mem_map.1 hkey
    obtain ⟨hmember, hcalled⟩ := List.mem_filter.1 hother
    obtain rfl := List.inj_on_of_nodup_map hkeys hmember hvisit hsame
    rw [Visit.isCalled_eq, hvalue] at hcalled
    cases hcalled

end SelectedObject

/-! ## §4 Fields -/

/-- The field stands in an object of the data, which holds its value under its key if it has
one, and the keys of its path lead to it in the operation. -/
structure Visit.Stands (data : Value) (operation : List Field) (visit : Visit m) : Prop where
  object : ∃ before members, visit.path = before ++ [.key visit.key] ∧
    data.at? before = some (.object members) ∧ members.lookup visit.key = visit.value?
  node : NodeAt operation visit.path.keys visit.node

namespace Visit

variable {scope : Scope m} {data : Value} {operation : List Field} {visit : Visit m}

omit [Monad m] [MonadAttach m] in
/-- The path of a field leads to its value. -/
theorem Stands.at?_eq (h : visit.Stands data operation) : data.at? visit.path = visit.value? := by
  obtain ⟨before, members, hpath, hobject, hvalue⟩ := h.object
  rw [hpath, Value.at?_append, hobject, Option.bind_some, Value.at?_cons, Value.step?_object,
    hvalue]
  exact Option.bind_fun_some _

/-- The fields of an object stand in it. -/
theorem AllTell.stand {selections : List Field} {id : TypeId} {parent : Value}
    {path : ResponsePath} {visits : List (Visit m)}
    (h : AllTell scope selections id parent path visits) (hdiffer : SiblingsDiffer selections)
    (hobject : data.at? path = some (.object (assignAll [] (contributions visits))))
    (hnodes : ∀ node ∈ selections, NodeAt operation (path.keys ++ [node.responseKey]) node) :
    ∀ visit ∈ visits, visit.Stands data operation := by
  intro visit hvisit
  let object : SelectedObject m := ⟨selections, path, visits⟩
  have hexact : object.Exact scope.schema :=
    SelectedObject.exact_of_told h.nodes fun visit hvisit => ⟨scope, rfl, h.told visit hvisit⟩
  have hpath : visit.path = path ++ [.key visit.key] := (h.tell visit hvisit).path_eq
  refine ⟨⟨path, _, hpath, hobject, hexact.lookup_eq hdiffer.1 visit hvisit⟩, ?_⟩
  rw [hpath, ResponsePath.keys_append]
  exact hnodes visit.node (h.nodes ▸ List.mem_map_of_mem hvisit)

/-- An object in the value of a field stands some indices below it. -/
theorem Tells.at?_objects {node : Field} {parentType : TypeId} {parent : Value}
    {path : ResponsePath} (h : visit.Tells scope node parentType parent path) :
    ∀ object ∈ visit.objects, ∃ rest : ResponsePath, rest.keys = [] ∧
      object.path = path ++ rest ∧
      (visit.value?.bind fun value => value.at? rest) = some (.object object.members) := by
  cases h with
  | unknown _ => simp [Visit.objects]
  | refused _ _ _ => simp [Visit.objects]
  | called _ _ _ hanswers =>
    cases hanswers with
    | failed _ => simp [Visit.objects, Completion.objects]
    | leaf _ => simp [Visit.objects, Completion.objects]
    | selected _ htells => exact htells.at?_objects

/-- What is below a field that stands where it should does so as well. -/
theorem Stands.below (h : visit.Stands data operation) (htold : visit.Told scope)
    (hdiffer : SiblingsDiffer visit.node.selections) :
    ∀ below ∈ visit.all, below.Stands data operation := by
  intro below hbelow
  refine descend (P := fun visit below => visit.Stands data operation → visit.Told scope →
    SiblingsDiffer visit.node.selections → below.Stands data operation) (fun _ h _ _ => h) ?_
    visit below hbelow h htold hdiffer
  intro visit object field below hobject hfield ih hstands htold hdiffer
  obtain ⟨parentType, parent, htells⟩ := htold
  obtain ⟨hselections, id, value, htell⟩ := htells.objects object hobject
  obtain ⟨rest, hkeys, hpath, hfound⟩ := htells.at?_objects object hobject
  have hdata : data.at? object.path = some (.object object.members) := by
    rw [hpath, Value.at?_append, hstands.at?_eq, hfound]
  have hnodes : ∀ node ∈ visit.node.selections,
      NodeAt operation (object.path.keys ++ [node.responseKey]) node := by
    intro node hnode
    rw [hpath, ResponsePath.keys_append, hkeys, List.append_nil]
    exact hstands.node.append hnode
  have hnode : field.node ∈ visit.node.selections := htell.nodes ▸ List.mem_map_of_mem hfield
  exact ih (htell.stand hdiffer hdata hnodes field hfield) (htell.told field hfield)
    (hdiffer.below hnode)

end Visit

namespace Visit

variable {scope : Scope m} {visit : Visit m}

/-- The path of what is below a field starts with the path of the field. -/
theorem Told.path_below (h : visit.Told scope) :
    ∀ below ∈ visit.all, ∃ rest : ResponsePath, below.path = visit.path ++ rest := by
  intro below hbelow
  refine descend (P := fun visit below => visit.Told scope →
    ∃ rest : ResponsePath, below.path = visit.path ++ rest)
    (fun visit _ => ⟨[], (List.append_nil _).symm⟩) ?_ visit below hbelow h
  intro visit object field below hobject hfield ih htold
  obtain ⟨parentType, parent, htells⟩ := htold
  obtain ⟨_, id, value, htell⟩ := htells.objects object hobject
  obtain ⟨between, _, hobjectPath, _⟩ := htells.at?_objects object hobject
  obtain ⟨rest, hrest⟩ := ih (htell.told field hfield)
  rw [(htell.tell field hfield).path_eq, hobjectPath] at hrest
  exact ⟨between ++ [.key field.node.responseKey] ++ rest, by simpa using hrest⟩

end Visit

/-! ## §5 Requests -/

/-- What a record with a path says of the field that it is about. The path without its last
key leads to an object of the data. This object has the last key if and only if the
field was called, and holds null under it if the record is about the answer of the
resolver. The keys of the path lead to the field and to no other one, and the record
stands at one place, that of the field or one inside its arguments. -/
structure ErrorRecord.Points (data : Members) (operation : Operation) (visit : Visit m)
    (path : ResponsePath) (record : ErrorRecord) : Prop where
  own : visit.path = path ∧ record ∈ visit.records
  object : ∃ before key members, path = before ++ [.key key] ∧
    (Value.object data).at? before = some (.object members) ∧
    (key ∈ members.map (·.1) ↔ visit.isCalled = true) ∧
    (visit.failure? = some record → members.lookup key = some .null)
  node : NodeAt operation.selections path.keys visit.node ∧
    ∀ other, NodeAt operation.selections path.keys other → other = visit.node
  place : ∃ place ∈ visit.node.places, record.locations = [place]

/-- A field that stands where it should has records that point there. -/
theorem Visit.Stands.points [LawfulMonad m] [LawfulMonadAttach m] {scope : Scope m} {data : Members}
    {operation : Operation} {visit : Visit m}
    (h : visit.Stands (.object data) operation.selections) (htold : visit.Told scope)
    (hdiffer : SiblingsDiffer operation.selections) {record : ErrorRecord}
    (hrecord : record ∈ visit.records) {path : ResponsePath} (hpath : record.path = some path) :
    record.Points data operation visit path := by
  obtain ⟨parentType, parent, htells⟩ := htold
  obtain ⟨hplaced, hplace⟩ := htells.placedIn record hrecord
  obtain rfl : visit.path = path := Option.some.inj (hplaced.symm.trans hpath)
  obtain ⟨before, members, hsplit, hobject, hvalue⟩ := h.object
  refine ⟨⟨rfl, hrecord⟩, ⟨before, visit.key, members, hsplit, hobject, ?_, ?_⟩,
    ⟨h.node, fun other hother => hother.unique hdiffer h.node⟩, hplace⟩
  · rw [mem_keys_iff, hvalue, Visit.isCalled_eq]
  · intro hfailure
    rw [hvalue]
    exact htells.value_of_failure (by simp [hfailure])

namespace Account.Tells

variable {schema : Schema m} {options : RequestOptions} {document : Document}
  {response : Response} {events : List (Event m)} {account : Account m} {operation : Operation}

/-- All fields of a request that runs one operation stand where they should. -/
theorem stand (h : account.Tells schema options document response events)
    (hone : (Request.select document options.operationName).1 = [operation])
    (hdiffer : SiblingsDiffer operation.selections) : ∀ visit ∈ account.visits,
    visit.Stands (.object response.data) operation.selections := by
  obtain ⟨checked, _, hoperations⟩ := h.operations
  rw [hone] at hoperations
  obtain ⟨part, others, htells, hnone, rfl⟩ := List.forall₂_cons_left_iff.1 hoperations
  cases hnone
  intro visit hvisit
  obtain ⟨top, htop, hbelow⟩ := Visit.mem_allOf.1 hvisit
  have hdata := h.data
  cases htells with
  | unsupported _ => cases htop
  | ran _ _ htell =>
    simp only [Account.top, OperationAccount.visits, List.flatMap_cons, List.flatMap_nil,
      List.append_nil] at htop hdata
    have hnode : top.node ∈ operation.selections := htell.nodes ▸ List.mem_map_of_mem htop
    have hstands := htell.stand hdiffer (congrArg (fun data => some (Value.object data)) hdata)
      (fun node hnode => .here hnode) top htop
    exact hstands.below (htell.told top htop) (hdiffer.below hnode) visit hbelow

/-- A record with a path is one about a field. -/
theorem exists_visit [LawfulMonad m] [LawfulMonadAttach m]
    (h : account.Tells schema options document response events) {record : ErrorRecord}
    (hrecord : record ∈ response.errors) {path : ResponsePath} (hpath : record.path = some path) :
    ∃ visit ∈ account.visits, record ∈ visit.records := by
  have hnone : record.path ≠ none := by simp [hpath]
  obtain ⟨checked, hparts⟩ := h.exists_operation
  rw [h.errors] at hrecord
  rcases List.mem_append.1 hrecord with hselect | hpart
  · exact absurd (Request.path_of_select hselect) hnone
  · obtain ⟨part, hmem, hrecord⟩ := List.mem_flatMap.1 hpart
    obtain ⟨operation, _, htells⟩ := hparts part hmem
    cases htells with
    | unsupported _ =>
      rw [List.mem_singleton.1 hrecord] at hnone
      exact absurd rfl hnone
    | ran _ hbound _ =>
      rcases List.mem_append.1 hrecord with hvariable | hfield
      · exact absurd (VariableBindings.path_of_errors hbound record hvariable) hnone
      · obtain ⟨visit, hvisit, hown⟩ := List.mem_flatMap.1 hfield
        obtain ⟨top, htop, hbelow⟩ := Visit.mem_allOf.1 hvisit
        have htops : top ∈ account.top := List.mem_flatMap.2 ⟨_, hmem, htop⟩
        exact ⟨visit, Visit.mem_allOf.2 ⟨top, htops, hbelow⟩, hown⟩

end Account.Tells

/-- Tracing leaves a request as it is. If one operation runs, and its selection sets have
no two fields of one response key, then every record with a path points to the right
place in the data and in the operation. -/
theorem Request.runDocument_points [LawfulMonad m] [LawfulMonadAttach m] [MonadLog m]
    (schema : Schema m) (options : RequestOptions) (document : Document) {operation : Operation}
    (hone : (select document options.operationName).1 = [operation])
    (hdiffer : SiblingsDiffer operation.selections) :
    Prod.fst <$> (runDocument (Hosting.tracing.schema schema) options document).run.run [] =
        (runDocument schema options document).run ∧
      ∀ response events, CanReturn
        ((runDocument (Hosting.tracing.schema schema) options document).run.run [])
          (.ok response, events) →
        ∃ account : Account m, account.Tells schema options document response events ∧
          ∀ record ∈ response.errors, ∀ path, record.path = some path →
            ∃ visit ∈ account.visits, record.Points response.data operation visit path := by
  constructor
  · exact Hosting.simulation_tracing.runDocument schema options document []
  · intro response events hresponse
    obtain ⟨account, htells⟩ := exists_account schema options hresponse
    refine ⟨account, htells, fun record hrecord path hpath => ?_⟩
    obtain ⟨visit, hvisit, hown⟩ := htells.exists_visit hrecord hpath
    obtain ⟨_, _, htold⟩ := htells.told visit hvisit
    exact ⟨visit, hvisit,
      (htells.stand hone hdiffer visit hvisit).points htold hdiffer hown hpath⟩

/-- A schema whose query gives items in lists of lists, with nulls between them. Every item
has a name and a field that fails. -/
def Schema.failing : Schema Id where
  types := Build.builtInTypes ++ [
    .of (utf8 "Item") [] (.object [
      ⟨utf8 "name", .named 0, [], memberResolver (utf8 "name"), none, []⟩,
      ⟨utf8 "fail", .named 0, [], fun _ _ _ => .error (utf8 "no"), none, []⟩]),
    .of (utf8 "Query") [] (.object [
      ⟨utf8 "items", .list (.list (.named 5)), [], fun _ _ _ => .ok (.list [
        .list [.null, .object []], .null, .object []]), none, []⟩])]
  query := 6
  mutation := none

/-- A query for the items, in which the name is given an argument that it does not have. -/
def Operation.misdirected : Operation :=
  ⟨.query, none, [], [⟨some (utf8 "all"), utf8 "items", [],
    [⟨none, utf8 "name", [⟨utf8 "short", .boolean ⟨2, 15⟩ true, ⟨2, 8⟩⟩], [], ⟨2, 3⟩⟩,
      ⟨none, utf8 "fail", [], [], ⟨3, 3⟩⟩], ⟨1, 2⟩⟩], ⟨1, 1⟩⟩

/-- The records lead to the second item of the first list, and to the item that stands for a
list. -/
theorem Request.runDocument_points_misdirected :
    let traced := ((runDocument (Hosting.tracing.schema Schema.failing) .plain
      ⟨[.misdirected]⟩).run.run []).run
    let response := traced.1.toOption.getD .empty
    SiblingsDiffer Operation.misdirected.selections ∧
      response.errors.map (fun record => (record.path, record.locations)) = [
        (some [.key (utf8 "all"), .index 0, .index 1, .key (utf8 "name")], [⟨2, 8⟩]),
        (some [.key (utf8 "all"), .index 0, .index 1, .key (utf8 "fail")], [⟨3, 3⟩]),
        (some [.key (utf8 "all"), .index 2, .key (utf8 "name")], [⟨2, 8⟩]),
        (some [.key (utf8 "all"), .index 2, .key (utf8 "fail")], [⟨3, 3⟩])] ∧
      ∃ account : Account Id, ∀ record ∈ response.errors, ∀ path, record.path = some path →
        ∃ visit ∈ account.visits, record.Points response.data .misdirected visit path := by
  have hdiffer : SiblingsDiffer Operation.misdirected.selections := by decide
  have hresponse : ((runDocument (Hosting.tracing.schema Schema.failing) .plain
      ⟨[.misdirected]⟩).run.run []).run.1.toOption.isSome = true := by decide +kernel
  refine ⟨hdiffer, by decide +kernel, ?_⟩
  obtain ⟨account, _, hpoints⟩ := (runDocument_points Schema.failing .plain ⟨[.misdirected]⟩ rfl
    hdiffer).2 _ _ (Prod.ext (eq_ok_of_isSome .empty hresponse) rfl)
  exact ⟨account, hpoints⟩

end GraphQL
