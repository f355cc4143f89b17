/-
GraphQL.Proofs.Execution.Aliasing — an alias renames, and does nothing else.

  §1 Renaming  — one key instead of another, among members and in paths.
  §2 Objects   — the objects made of the selections with the field, renamed.
  §3 Fields    — a field with another alias, and the fields that hold it.
  §4 Requests  — the response of a document with another alias.

The response with the new alias is read from the account of the run with the old
one. In each object that was made of the field's own selections the key is renamed
where it stands, and in the paths of records the one step that leads to it. Objects
further up are put together anew from what their fields then contribute, since one
of these may have taken the place of another.
-/
import GraphQL.Proofs.Document.Alias
import GraphQL.Proofs.Execution.Bookkeeping
import GraphQL.Proofs.Execution.Containment
import GraphQL.Proofs.Execution.Merging
import GraphQL.Proofs.Value.Equality

namespace GraphQL

open Execution (Completed objectOf)

/-! ## §1 Renaming -/

/-- A key and the one that is to stand for it. -/
structure Rekeying where
  key : Bytes
  newKey : Bytes

namespace Rekeying

variable (rekeying : Rekeying)

/-- The key that stands for a key. -/
def apply (key : Bytes) : Bytes := if key = rekeying.key then rekeying.newKey else key

/-- The members with the key renamed in its place. -/
def members (members : Members) : Members :=
  members.map fun member => (rekeying.apply member.1, member.2)

/-- A step with its key renamed. -/
def segment : PathSegment → PathSegment
  | .key name => .key (rekeying.apply name)
  | .index position => .index position

/-- The path with the step at the depth renamed. -/
def path (depth : Nat) (path : ResponsePath) : ResponsePath := path.modify depth rekeying.segment

/-- The record with the step at the depth of its path renamed. -/
def record (depth : Nat) (record : ErrorRecord) : ErrorRecord :=
  record.moved (rekeying.path depth)

/-- The key is not the new one, unless it is that already. -/
def Clear (key : Bytes) : Prop := key = rekeying.newKey → key = rekeying.key

variable {rekeying}

theorem apply_inj {key other : Bytes} (hkey : rekeying.Clear key) (hother : rekeying.Clear other) :
    rekeying.apply key = rekeying.apply other ↔ key = other := by
  unfold apply Clear at *
  constructor
  · intro h
    split_ifs at h with hk ho ho
    · rw [hk, ho]
    · exact absurd (hother h.symm) ho
    · exact absurd (hkey h) hk
    · exact h
  · rintro rfl
    rfl

theorem members_assign {members : Members} {key : Bytes} {value : Value}
    (hmembers : ∀ member ∈ members, rekeying.Clear member.1) (hkey : rekeying.Clear key) :
    rekeying.members (assign members key value) =
      assign (rekeying.members members) (rekeying.apply key) value := by
  induction members with
  | nil => rfl
  | cons member rest ih =>
    obtain ⟨hfirst, hrest⟩ := List.forall_mem_cons.1 hmembers
    obtain ⟨first, held⟩ := member
    have hsame := apply_inj hfirst hkey
    simp only [assign, members, List.map_cons, beq_iff_eq, hsame]
    split
    · rename_i h
      rw [List.map_cons, h]
    · rw [List.map_cons]
      exact congrArg _ (ih hrest)

/-- Members may be renamed before they are assigned, or afterwards. -/
theorem members_assignAll {members additions : Members}
    (hmembers : ∀ member ∈ members, rekeying.Clear member.1)
    (hadditions : ∀ member ∈ additions, rekeying.Clear member.1) :
    rekeying.members (assignAll members additions) =
      assignAll (rekeying.members members) (rekeying.members additions) := by
  induction additions generalizing members with
  | nil => rfl
  | cons first rest ih =>
    obtain ⟨hfirst, hrest⟩ := List.forall_mem_cons.1 hadditions
    have hnext : ∀ member ∈ assign members first.1 first.2, rekeying.Clear member.1 := by
      intro member hmember
      rcases mem_of_mem_assign hmember with h | rfl
      · exact hmembers member h
      · exact hfirst
    rw [assignAll_cons, ih hnext hrest, members_assign hmembers hfirst]
    rfl

/-- What is below a key of the object at the path is below the renamed key. -/
theorem shifts (path : ResponsePath) (key : Bytes) :
    Execution.Shifts (rekeying.path path.length) (path ++ [.key key])
      (path ++ [.key (rekeying.apply key)]) := by
  intro rest
  rw [List.append_assoc, List.append_assoc, Rekeying.path]
  simp [List.modify_eq_take_cons_drop, segment]

/-! ## §2 Objects -/

variable {m : Type → Type} (rekeying)

/-- The object made of the visits, where the holders lead to the selections in whose objects
the key is renamed. Each holder is the index of the field that holds the next one. -/
def object : List Nat → ResponsePath → List (Visit m) → Completed
  | [], path, visits =>
    (.object (rekeying.members (assignAll [] (Visit.contributions visits))),
      ((Visit.allOf visits).flatMap Visit.records).map (rekeying.record path.length))
  | holder :: holders, _, visits =>
    objectOf (visits.mapIdx fun i visit =>
      (visit.key, if i = holder then visit.resultBy (object holders) else visit.result))

variable {rekeying}

/-- The results of visits with the key renamed at the depth of their object. -/
def results (rekeying : Rekeying) (depth : Nat) (visits : List (Visit m)) :
    List (Bytes × FieldResult) :=
  visits.map fun visit => (rekeying.apply visit.key, visit.result.moved (rekeying.path depth))

theorem members_results (depth : Nat) (visits : List (Visit m)) :
    Response.members (rekeying.results depth visits) =
      rekeying.members (Visit.contributions visits) := by
  rw [Visit.contributions_eq]
  simp only [results, Response.members, members, List.filterMap_map, List.map_filterMap,
    Option.map_map]
  rfl

theorem records_results (depth : Nat) (visits : List (Visit m)) :
    Response.records (rekeying.results depth visits) =
      ((Visit.allOf visits).flatMap Visit.records).map (rekeying.record depth) := by
  simp only [results, Response.records, FieldResult.moved, Visit.result, Visit.allOf_eq,
    List.flatMap_map, List.flatMap_assoc, List.map_flatMap]
  rfl

/-- The keys of members are those of visits. -/
theorem clear_contributions {visits : List (Visit m)}
    (h : ∀ visit ∈ visits, rekeying.Clear visit.key) :
    ∀ member ∈ Visit.contributions visits, rekeying.Clear member.1 := by
  intro member hmember
  rw [Visit.contributions_eq, List.mem_filterMap] at hmember
  obtain ⟨visit, hvisit, hvalue⟩ := hmember
  obtain ⟨value, -, rfl⟩ := Option.map_eq_some_iff.1 hvalue
  exact h visit hvisit

/-- So the object that they make is the one that is renamed in place. -/
theorem objectOf_results {path : ResponsePath} {visits : List (Visit m)}
    (h : ∀ visit ∈ visits, rekeying.Clear visit.key) :
    objectOf (rekeying.results path.length visits) = rekeying.object [] path visits := by
  have hempty : ∀ member ∈ ([] : Members), rekeying.Clear member.1 := fun _ => nofun
  have hdata : assignAll [] (rekeying.members (Visit.contributions visits)) =
      rekeying.members (assignAll [] (Visit.contributions visits)) :=
    (members_assignAll hempty (clear_contributions h)).symm
  simp only [objectOf, Response.addAll, Response.empty, members_results, records_results, hdata,
    List.nil_append, object]

/-- A record and the same one with at most a step of its path renamed. -/
def Renames (rekeying : Rekeying) (record other : ErrorRecord) : Prop :=
  ∃ depth, other = rekeying.record depth record

-- There is no step at the length of a path.
instance (rekeying : Rekeying) : Std.Refl rekeying.Renames where
  refl record := by
    refine ⟨(record.path.getD []).length, ?_⟩
    obtain ⟨message, locations, path⟩ := record
    cases path with
    | none => rfl
    | some path => simp [Rekeying.record, ErrorRecord.moved, Rekeying.path, List.modify_eq_self]

theorem forall₂_renames (rekeying : Rekeying) (depth : Nat) (records : List ErrorRecord) :
    List.Forall₂ rekeying.Renames records (records.map (rekeying.record depth)) := by
  rw [List.forall₂_map_right_iff, List.forall₂_same]
  exact fun record _ => ⟨depth, rfl⟩

/-- A value and the same one with the key renamed in its place, in some of the objects in it. -/
inductive Alters (rekeying : Rekeying) : Value → Value → Prop
  | refl (value : Value) : Alters rekeying value value
  | list (items others : List Value) : List.Forall₂ (Alters rekeying) items others →
    Alters rekeying (.list items) (.list others)
  | object (members others : Members) : members.map (·.1) = others.map (·.1) →
    List.Forall₂ (Alters rekeying) (members.map (·.2)) (others.map (·.2)) →
    Alters rekeying (.object members) (.object others)
  | renamed (members : Members) :
    Alters rekeying (.object members) (.object (rekeying.members members))

instance (rekeying : Rekeying) : Std.Refl rekeying.Alters := ⟨.refl⟩

theorem Alters.of_members {members others : Members}
    (h : List.Forall₂ (fun member other => member.1 = other.1 ∧ rekeying.Alters member.2 other.2)
      members others) : rekeying.Alters (.object members) (.object others) := by
  refine .object members others (map_eq_of_forall₂ h fun _ _ hmember => hmember.1) ?_
  rw [List.forall₂_map_left_iff, List.forall₂_map_right_iff]
  exact h.imp fun _ _ hmember => hmember.2

/-- The object is the one with its own keys but for the renamed ones, and so are its records. -/
theorem alike_object (holders : List Nat) (path : ResponsePath) (visits : List (Visit m)) :
    Alike rekeying.Alters rekeying.Renames (Visit.object visits)
      (rekeying.object holders path visits) := by
  induction holders generalizing path visits with
  | nil =>
    rw [Visit.object, objectOf, Response.addAll, Visit.members_results, Visit.records_results]
    exact ⟨.renamed _, forall₂_renames rekeying path.length _⟩
  | cons holder holders ih =>
    have hfields (i : Nat) (visit : Visit m) : visit.result.Alike rekeying.Alters rekeying.Renames
        (if i = holder then visit.resultBy (rekeying.object holders) else visit.result) := by
      split
      · exact Visit.alike_resultBy .list ih visit
      · exact .refl visit.result
    refine ⟨.of_members (assignAll_rel .nil ?_), ?_⟩
    · exact Visit.forall₂_members (fun i visit => ⟨rfl, (hfields i visit).value⟩) visits
    · exact Visit.forall₂_records (fun i visit => (hfields i visit).errors) visits

end Rekeying

/-! ## §3 Fields -/

namespace Rekeying

/-- The change of a field gives it the renamed key, and no more than that. -/
def Rekeys (rekeying : Rekeying) (node changed : Field) : Prop :=
  (∃ aliasName, changed = { node with aliasName }) ∧
    changed.responseKey = rekeying.apply node.responseKey

/-- The key is that of the field at the index, and no field beside it has either key. -/
structure Suits (rekeying : Rekeying) (index : Nat) (nodes : List Field) : Prop where
  target : ∀ node, nodes[index]? = some node → node.responseKey = rekeying.key
  others : ∀ i node, nodes[i]? = some node → i ≠ index →
    node.responseKey ≠ rekeying.key ∧ node.responseKey ≠ rekeying.newKey

variable {rekeying : Rekeying}

theorem rekeys_withAlias {node : Field} (h : node.responseKey = rekeying.key) :
    rekeying.Rekeys node (node.withAlias rekeying.newKey) :=
  ⟨⟨some rekeying.newKey, rfl⟩, by rw [apply, if_pos h]; rfl⟩

theorem rekeys_self {node : Field} (h : node.responseKey ≠ rekeying.key) :
    rekeying.Rekeys node node :=
  ⟨⟨node.aliasName, by cases node; rfl⟩, by rw [apply, if_neg h]⟩

/-- Each field is as with the alias, then. -/
theorem Suits.rekeys {index : Nat} {nodes : List Field} (h : rekeying.Suits index nodes) (i : Nat)
    (node : Field) (hnode : nodes[i]? = some node) :
    rekeying.Rekeys node (if i = index then node.withAlias rekeying.newKey else node) := by
  split
  · subst i
    exact rekeys_withAlias (h.target node hnode)
  · rename_i hindex
    exact rekeys_self (h.others i node hnode hindex).1

theorem Suits.clear {index : Nat} {nodes : List Field} (h : rekeying.Suits index nodes)
    (node : Field) (hnode : node ∈ nodes) : rekeying.Clear node.responseKey := by
  intro hnew
  obtain ⟨i, hi⟩ := List.mem_iff_getElem?.1 hnode
  by_cases hindex : i = index
  · subst i
    exact h.target node hi
  · exact absurd hnew (h.others i node hi hindex).2

end Rekeying

namespace Execution

variable {m : Type → Type} [Monad m] [LawfulMonad m] [MonadLog m] {scope : Scope m}
  {rekeying : Rekeying}

/-- A field with the renamed key goes along with its visit. -/
theorem inStep_rekeyed {node changed : Field} (h : rekeying.Rekeys node changed)
    (parentType : TypeId) (parent : Value) (path : ResponsePath) :
    InStep (fun visit result => visit.node = node ∧
        (rekeying.apply visit.key, visit.result.moved (rekeying.path path.length)) =
          (changed.responseKey, result))
      (visitField scope node parentType parent (path ++ [.key node.responseKey]))
      (executeField scope changed parentType parent path) := by
  obtain ⟨⟨aliasName, rfl⟩, hkey⟩ := h
  rw [executeField_eq, hkey]
  refine (inStep_movedField node aliasName parentType parent
    (Rekeying.shifts path node.responseKey)).imp ?_
  rintro visit _ ⟨rfl, rfl⟩
  exact ⟨rfl, rfl⟩

/-- A field that is left as it is goes along with its visit. -/
theorem inStep_same (node : Field) (parentType : TypeId) (parent : Value) (path : ResponsePath) :
    InStep (fun visit result => visit.node = node ∧
        (visit.key, visit.result) = (node.responseKey, result))
      (visitField scope node parentType parent (path ++ [.key node.responseKey]))
      (executeField scope node parentType parent path) := by
  have hsame : ({ node with aliasName := node.aliasName } : Field) = node := by cases node; rfl
  have hstay : Shifts id (path ++ [.key node.responseKey]) (path ++ [.key node.responseKey]) :=
    fun _ => rfl
  have hfield : InStep _ _ (executeAt scope { node with aliasName := node.aliasName } _ _ _) :=
    inStep_movedField node node.aliasName parentType parent hstay
  rw [executeField_eq]
  rw [hsame] at hfield
  refine hfield.imp ?_
  rintro visit _ ⟨rfl, rfl⟩
  rw [FieldResult.moved_id]
  exact ⟨rfl, rfl⟩

/-- The field that holds the others goes along with its visit, if the objects do that are made
of its selections. -/
theorem inStep_holder {node : Field} {selections : List Field}
    {object : ResponsePath → List (Visit m) → Completed}
    (hempty : selections.isEmpty = node.selections.isEmpty)
    (h : ∀ id value path, InStep (fun visits results => objectOf results = object path visits)
      (visitFields scope node.selections id value path)
      (executeFields scope selections id value path))
    (parentType : TypeId) (parent : Value) (path : ResponsePath) :
    InStep (fun visit result => visit.node = node ∧
        (visit.key, visit.resultBy object) =
          (({ node with selections } : Field).responseKey, result))
      (visitField scope node parentType parent (path ++ [.key node.responseKey]))
      (executeField scope { node with selections } parentType parent path) := by
  let path' := path ++ [.key node.responseKey]
  let changed : Field := { node with selections }
  have hfields : ∀ type value rest, InStep
      (fun visits results =>
        objectOf results = movedErrors id (object (path' ++ rest) visits))
      (visitFields scope node.selections type value (path' ++ rest))
      (executeFields scope changed.selections type value (id path' ++ rest)) := by
    intro type value rest
    simp only [movedErrors_id]
    exact h type value _
  have hfield : InStep (Reads object id node) (visitField scope node parentType parent path')
      (executeAt scope changed parentType parent (id path')) :=
    inStep_visitField rfl hempty hfields parentType parent
  rw [executeField_eq]
  refine hfield.imp ?_
  rintro visit _ ⟨rfl, rfl⟩
  rw [FieldResult.moved_id]
  exact ⟨rfl, rfl⟩

/-- The fields with the alias among them, or below them, go along with their visits. -/
theorem inStep_aliasAt {index : Nat} (holders : List Nat) {nodes : List Field}
    (h : rekeying.Suits index (selectionsAt holders nodes)) (parentType : TypeId) (parent : Value)
    (path : ResponsePath) :
    InStep (fun visits results => objectOf results = rekeying.object holders path visits)
      (visitFields scope nodes parentType parent path)
      (executeFields scope (aliasAt rekeying.newKey index holders nodes) parentType parent
        path) := by
  induction holders generalizing nodes parentType parent path with
  | nil =>
    refine (inStep_visitFields _ fun i node hnode =>
      inStep_rekeyed (h.rekeys i node hnode) parentType parent path).imp ?_
    rintro visits _ ⟨rfl, rfl⟩
    rw [mapIdx_const]
    exact Rekeying.objectOf_results fun visit hvisit =>
      h.clear visit.node (List.mem_map_of_mem hvisit)
  | cons holder holders ih =>
    refine (inStep_visitFields (fun i visit => (visit.key,
      if i = holder then visit.resultBy (rekeying.object holders) else visit.result))
      fun i node hnode => ?_).imp ?_
    · split
      · subst i
        refine inStep_holder (isEmpty_aliasAt _ _ _) (fun type value path => ?_) parentType
          parent path
        refine ih ?_ type value path
        simpa only [selectionsAt, hnode] using h
      · exact inStep_same node parentType parent path
    · rintro visits _ ⟨-, rfl⟩
      rfl

end Execution

/-! ## §4 Requests -/

namespace Account

variable {m : Type → Type} {rekeying : Rekeying} {turn : Option Nat} {start : Response}

/-- The response that the account is of. -/
def response (start : Response) (account : Account m) : Response where
  data := assignAll start.data (Visit.contributions account.top)
  errors := start.errors ++ account.flatMap OperationAccount.records

/-- How a field at the top is read if the holder is the first that leads to the selections in
whose objects the key is renamed. -/
def readHeld (rekeying : Rekeying) (turn : Option Nat) (holder : Nat) (holders : List Nat)
    (i j : Nat) (visit : Visit m) : Bytes × FieldResult :=
  (visit.key, if turn = some i ∧ j = holder then visit.resultBy (rekeying.object holders)
    else visit.result)

/-- The response with a key renamed. At the top all operations make one object, in which the key
may be of any of them. Below it, the operation that has the turn leads to the selections. -/
def renamed (rekeying : Rekeying) (turn : Option Nat) (start : Response) :
    List Nat → Account m → Response
  | [], account =>
    ⟨rekeying.members (assignAll start.data (Visit.contributions account.top)),
      start.errors ++ account.flatMap fun entry => entry.own ++
        ((Visit.allOf entry.visits).flatMap Visit.records).map (rekeying.record 0)⟩
  | holder :: holders, account =>
    Account.responseBy start (readHeld rekeying turn holder holders) account

/-- All contributions are those of the operations, in order. -/
theorem contributions_top (account : Account m) :
    Visit.contributions account.top =
      account.flatMap fun entry => Visit.contributions entry.visits := by
  simp only [Visit.contributions_eq, Account.top, List.filterMap_flatMap]

/-- A response whose fields are read without regard to their indices. -/
theorem responseBy_const (start : Response) (read : Visit m → Bytes × FieldResult)
    (account : Account m) : Account.responseBy start (fun _ _ => read) account =
      ⟨assignAll start.data (account.flatMap fun entry => Response.members (entry.visits.map read)),
        start.errors ++
          account.flatMap fun entry => entry.own ++ Response.records (entry.visits.map read)⟩ := by
  simp only [Account.responseBy, mapIdx_const, List.flatMap_def]

/-- Read field by field, the response is the one of the account. -/
theorem response_eq (start : Response) (account : Account m) :
    Account.response start account =
      Account.responseBy start (fun _ _ visit => (visit.key, visit.result)) account := by
  have hresults (visits : List (Visit m)) :
      visits.map (fun visit => (visit.key, visit.result)) = Visit.results visits := rfl
  simp only [responseBy_const, hresults, Visit.members_results, Visit.records_results, response,
    contributions_top, funext (OperationAccount.records_eq (m := m))]

/-- So it is with the key renamed at the top, if there is no data before. -/
theorem renamed_nil_eq (hstart : start.data = []) {account : Account m}
    (h : ∀ visit ∈ account.top, rekeying.Clear visit.key) :
    Account.renamed rekeying turn start [] account =
      Account.responseBy start (fun _ _ visit =>
        (rekeying.apply visit.key, visit.result.moved (rekeying.path 0))) account := by
  have hempty : ∀ member ∈ ([] : Members), rekeying.Clear member.1 := fun _ => nofun
  have hresults (visits : List (Visit m)) : visits.map (fun visit =>
      (rekeying.apply visit.key, visit.result.moved (rekeying.path 0))) =
        rekeying.results 0 visits := rfl
  have hdata : rekeying.members (assignAll [] (Visit.contributions account.top)) =
      assignAll [] (rekeying.members (Visit.contributions account.top)) :=
    Rekeying.members_assignAll hempty (Rekeying.clear_contributions h)
  have hmembers : rekeying.members (Visit.contributions account.top) =
      account.flatMap fun entry => rekeying.members (Visit.contributions entry.visits) := by
    rw [contributions_top, Rekeying.members, List.map_flatMap]
    rfl
  simp only [responseBy_const, hresults, Rekeying.members_results, Rekeying.records_results,
    renamed, hstart, hdata, hmembers]

theorem alike_readHeld (holder : Nat) (holders : List Nat) (i j : Nat) (visit : Visit m) :
    visit.result.Alike rekeying.Alters rekeying.Renames
      (readHeld rekeying turn holder holders i j visit).2 := by
  unfold readHeld
  dsimp only
  split
  · exact Visit.alike_resultBy .list (Rekeying.alike_object holders) visit
  · exact .refl visit.result

/-- Data and records are those of the response with its own keys, but for the renamed ones. -/
theorem alike_renamed (holders : List Nat) (account : Account m) :
    Alike rekeying.Alters rekeying.Renames
      (.object (Account.response start account).data, (Account.response start account).errors)
      (.object (Account.renamed rekeying turn start holders account).data,
        (Account.renamed rekeying turn start holders account).errors) := by
  cases holders with
  | nil =>
    simp only [response, renamed, funext (OperationAccount.records_eq (m := m))]
    refine ⟨.renamed _, List.rel_append (List.forall₂_refl _) ?_⟩
    refine List.rel_flatMap (List.forall₂_same.2 fun entry _ => rfl) ?_
    rintro entry _ rfl
    exact List.rel_append (List.forall₂_refl _) (Rekeying.forall₂_renames rekeying 0 _)
  | cons holder holders =>
    rw [response_eq]
    obtain ⟨hdata, herrors⟩ := Account.alike_responseBy (fun _ _ _ => rfl)
      (alike_readHeld holder holders) start account
    exact ⟨.of_members hdata, herrors⟩

/-- What is visited at the top is in the selections of an operation. -/
theorem mem_selections {operations : List Operation} {account : Account m}
    (h : List.Forall₂ (fun operation (entry : OperationAccount m) =>
      ∀ visit ∈ entry.visits, visit.node ∈ operation.selections) operations account)
    (visit : Visit m) (hvisit : visit ∈ account.top) :
    ∃ operation ∈ operations, visit.node ∈ operation.selections := by
  induction h with
  | nil => cases hvisit
  | cons hentry _ ih =>
    rcases List.mem_append.1 hvisit with hfirst | hrest
    · exact ⟨_, List.mem_cons_self, hentry visit hfirst⟩
    · obtain ⟨operation, hoperation, hnode⟩ := ih hrest
      exact ⟨operation, List.mem_cons_of_mem _ hoperation, hnode⟩

end Account

namespace Request

variable {m : Type → Type} [Monad m] [LawfulMonad m] [MonadLog m] {schema : Schema m}
  {options : RequestOptions} {rekeying : Rekeying} {turn : Option Nat}

/-- A request goes along with its account. -/
theorem inStep_response (operations : List Operation) (start : Response) :
    InStep (fun account later => Account.response start account = later)
      (operations.mapM (visitOperation schema options))
      (runOperations schema options start operations) := by
  have hsame {α : Type} (items : List α) : (items.mapIdx fun _ item => item) = items := by
    rw [mapIdx_const fun item => item, List.map_id']
  have hoperations : InStep _ (operations.mapM (visitOperation schema options)) _ :=
    inStep_visitOperations (fun _ _ field => field) (fun _ _ visit => (visit.key, visit.result))
      (R := Eq) (fun _ _ _ => List.forall₂_refl _)
      (fun _ _ _ _ parentType parent _ node _ => Execution.inStep_same node parentType parent [])
      start
  simp only [hsame] at hoperations
  refine hoperations.imp ?_
  rintro account _ ⟨-, rfl⟩
  exact Account.response_eq start account

/-- With an alias for a field at the top, it goes along with the account in which the key of the
one object is renamed. -/
theorem inStep_renamed_nil {operations : List Operation} {number index : Nat}
    (h : ∀ (i : Nat) (operation : Operation), operations[i]? = some operation →
      ∀ (j : Nat) (field : Field), operation.selections[j]? = some field →
        rekeying.Clear field.responseKey ∧
        rekeying.Rekeys field
          (if turn = some i ∧ j = index then field.withAlias rekeying.newKey else field))
    {start : Response} (hstart : start.data = []) :
    InStep (fun account later => Account.renamed rekeying turn start [] account = later)
      (operations.mapM (visitOperation schema options))
      (runOperations schema options start (operations.mapIdx fun i operation =>
        if turn = some i then operation.withAlias ⟨number, [], index⟩ rekeying.newKey
        else operation)) := by
  have hchange (i : Nat) (operation : Operation) := Operation.ite_change (turn = some i) operation
    (operation.withAlias ⟨number, [], index⟩ rekeying.newKey) index
    (Field.withAlias · rekeying.newKey) rfl
  simp only [hchange]
  refine (inStep_visitOperations _
    (fun _ _ visit => (rekeying.apply visit.key, visit.result.moved (rekeying.path 0)))
    (fun _ _ visit => Rekeying.forall₂_renames rekeying 0 visit.result.errors)
    (fun i operation hoperation _ parentType parent j field hfield =>
      Execution.inStep_rekeyed (h i operation hoperation j field hfield).2 parentType parent [])
    start).imp ?_
  rintro account _ ⟨hnodes, rfl⟩
  refine Account.renamed_nil_eq hstart fun visit hvisit => ?_
  obtain ⟨operation, hoperation, hfield⟩ := Account.mem_selections hnodes visit hvisit
  obtain ⟨i, hi⟩ := List.mem_iff_getElem?.1 hoperation
  obtain ⟨j, hj⟩ := List.mem_iff_getElem?.1 hfield
  exact (h i operation hi j visit.node hj).1

/-- With an alias for a field below the top, it goes along with the account that is put together
anew. -/
theorem inStep_renamed_cons {operations : List Operation} {number holder : Nat}
    {holders : List Nat} {index : Nat}
    (h : ∀ i operation, operations[i]? = some operation → turn = some i →
      rekeying.Suits index (selectionsAt (holder :: holders) operation.selections))
    (start : Response) :
    InStep (fun account later =>
        Account.renamed rekeying turn start (holder :: holders) account = later)
      (operations.mapM (visitOperation schema options))
      (runOperations schema options start (operations.mapIdx fun i operation =>
        if turn = some i then
          operation.withAlias ⟨number, holder :: holders, index⟩ rekeying.newKey
        else operation)) := by
  have hchange (i : Nat) (operation : Operation) := Operation.ite_change (turn = some i) operation
    (operation.withAlias ⟨number, holder :: holders, index⟩ rekeying.newKey) holder
    (fun field => { field with
      selections := aliasAt rekeying.newKey index holders field.selections }) rfl
  simp only [hchange]
  refine (inStep_visitOperations _ (Account.readHeld rekeying turn holder holders)
    (fun i j visit => (Account.alike_readHeld holder holders i j visit).errors)
    (fun i operation hoperation scope parentType parent j field hfield => ?_) start).imp ?_
  · unfold Account.readHeld
    split
    · rename_i hplace
      obtain ⟨hturn, rfl⟩ := hplace
      refine Execution.inStep_holder (isEmpty_aliasAt _ _ _) (fun type value path => ?_) parentType
        parent []
      refine Execution.inStep_aliasAt holders ?_ type value path
      simpa only [selectionsAt, hfield] using h i operation hoperation hturn
    · exact Execution.inStep_same field parentType parent []
  · rintro account _ ⟨-, rfl⟩
    rfl

/-- Read from the account, a response is that of a document whose operations go along with it. -/
theorem map_visitDocument {document changed : Document} {read : Account m → Response}
    (h : ∀ checked : RequestOptions, InStep (fun account later => read account = later)
      ((select document options.operationName).1.mapM (visitOperation schema checked))
      (runOperations schema checked (select changed options.operationName).2
        (select changed options.operationName).1)) :
    read <$> visitDocument schema options document = runDocument schema options changed := by
  unfold visitDocument runDocument
  cases hchecked : checkOptions options with
  | error refusal =>
    rw [← hchecked, refused_bind hchecked, refused_bind hchecked]
    apply ExceptT.ext
    simp
  | ok checked =>
    rw [← hchecked, checked_bind hchecked, checked_bind hchecked,
      operationName_of_checkOptions hchecked, ← adapt_map]
    exact congrArg (ExceptT.adapt Refusal.aborted) ((h checked).map_eq fun _ _ hread => hread)

/-- The response is read from the account. -/
theorem map_response (schema : Schema m) (options : RequestOptions) (document : Document) :
    Account.response (select document options.operationName).2 <$>
      visitDocument schema options document = runDocument schema options document :=
  map_visitDocument fun _ => inStep_response _ _

/-- So is the response of the document with the alias. -/
theorem map_renamed (schema : Schema m) (options : RequestOptions) {document : Document}
    {place : FieldPlace} {node : Field} {newKey : Bytes}
    (hnode : document.field? place = some node)
    (hsiblings : ∀ field, document.Sibling options.operationName place field →
      field.responseKey ≠ node.responseKey ∧ field.responseKey ≠ newKey) :
    Account.renamed ⟨node.responseKey, newKey⟩
        (document.turn? options.operationName place.operation)
        (select document options.operationName).2 place.holders <$>
      visitDocument schema options document =
        runDocument schema options (document.withAlias place newKey) := by
  refine map_visitDocument fun checked => ?_
  rw [select_withAlias]
  obtain ⟨number, holders, index⟩ := place
  cases holders with
  | nil =>
    refine inStep_renamed_nil (fun i operation hoperation j field hfield => ?_)
      (data_of_select document _)
    rcases Document.sibling_of_top hnode hoperation hfield with
      ⟨hturn, hindex, rfl⟩ | ⟨hplace, hsibling⟩
    · rw [if_pos ⟨hturn, hindex⟩]
      exact ⟨fun _ => rfl, Rekeying.rekeys_withAlias rfl⟩
    · obtain ⟨hkey, hnew⟩ := hsiblings field hsibling
      rw [if_neg hplace]
      exact ⟨fun h => absurd h hnew, Rekeying.rekeys_self hkey⟩
  | cons holder holders =>
    refine inStep_renamed_cons (fun i operation hoperation hturn => ?_) _
    have hrun := Document.operation_of_turn hturn hoperation
    constructor
    · intro field hfield
      rw [Document.field?, hrun] at hnode
      exact congrArg Field.responseKey (Option.some.inj (hfield.symm.trans hnode))
    · intro j field hfield hindex
      exact hsiblings field (.inner (by simp) hrun hfield hindex)

/-- What is made of a result leaves the trace. -/
theorem trace_map {m : Type → Type} [Monad m] [LawfulMonad m] {ε α β : Type} (f : α → β)
    (x : ExceptT ε (Tracing m) α) (trace : List (Event m)) :
    Prod.snd <$> (f <$> x).run.run trace = Prod.snd <$> x.run.run trace := by
  simp

/-- An alias renames, and does nothing else, if no field beside the one that gets it has the
former key or the new one. A field at the top has those of all operations beside it that are
run. The runs with the alias and without it have one course of effects, and they give responses
that are read from one account, or they are refused alike. In the objects that are made of the
field's selection set, those in lists among them, the key is renamed where it stands, and so is
the step that leads to it in the paths of records. The records are the same ones in the same
order, with their messages and locations, and resolvers are called in the same order with the
same arguments. `Account.renamed` says which objects and which steps these are. -/
theorem runDocument_withAlias {m : Type → Type} [Monad m] [LawfulMonad m] [MonadLog m]
    (schema : Schema m) (options : RequestOptions) {document : Document} {place : FieldPlace}
    {node : Field} (newKey : Bytes) (hnode : document.field? place = some node)
    (hsiblings : ∀ field, document.Sibling options.operationName place field →
      field.responseKey ≠ node.responseKey ∧ field.responseKey ≠ newKey) :
    let rekeying : Rekeying := ⟨node.responseKey, newKey⟩
    let start := (select document options.operationName).2
    let renamed : Account m → Response := Account.renamed rekeying
      (document.turn? options.operationName place.operation) start place.holders
    let changed := document.withAlias place newKey
    (Account.response start <$> visitDocument schema options document =
        runDocument schema options document ∧
      renamed <$> visitDocument schema options document = runDocument schema options changed) ∧
    (∀ account,
      rekeying.Alters (.object (Account.response start account).data)
          (.object (renamed account).data) ∧
        List.Forall₂ rekeying.Renames (Account.response start account).errors
          (renamed account).errors) ∧
    ∀ trace,
      Prod.snd <$> (runDocument (Hosting.tracing.schema schema) options changed).run.run trace =
        Prod.snd <$>
          (runDocument (Hosting.tracing.schema schema) options document).run.run trace := by
  refine ⟨⟨map_response schema options document, map_renamed schema options hnode hsiblings⟩,
    Account.alike_renamed _, fun trace => ?_⟩
  rw [← map_renamed (Hosting.tracing.schema schema) options hnode hsiblings, trace_map,
    ← map_response (Hosting.tracing.schema schema) options document, trace_map]

end Request

/-- The field that fails, as the second one of the items. -/
def FieldPlace.failing : FieldPlace := ⟨0, [0], 1⟩

/-- With an alias, the field that fails has null under its new key in both items, one of which
is in a list of its own. The paths of its records end with the new key, those of the others are
as before. -/
theorem Request.runDocument_withAlias_failing :
    let field : Field := .plain (utf8 "fail") []
    let document : Document := .items field
    let first : ResponsePath := [.key (utf8 "all"), .index 0, .index 1]
    let second : ResponsePath := [.key (utf8 "all"), .index 2]
    (document.field? .failing = some field ∧
      ∀ other, document.Sibling none .failing other →
        other.responseKey ≠ utf8 "fail" ∧ other.responseKey ≠ utf8 "nope") ∧
    Account.renamed ⟨utf8 "fail", utf8 "nope"⟩ (some 0) .empty [0] <$>
        visitDocument Schema.failing .plain document =
      runDocument Schema.failing .plain (document.withAlias .failing (utf8 "nope")) ∧
    (runDocument Schema.failing .plain (document.withAlias .failing (utf8 "nope"))).run.map
        (fun response => (response.data, response.errors.map (·.path))) =
      .ok (.inItems [(utf8 "name", .null), (utf8 "nope", .null)],
        [some (first ++ [.key (utf8 "name")]), some (first ++ [.key (utf8 "nope")]),
          some (second ++ [.key (utf8 "name")]), some (second ++ [.key (utf8 "nope")])]) := by
  intro field document first second
  have hnode : document.field? .failing = some field := rfl
  have hsiblings : ∀ other, document.Sibling none .failing other →
      other.responseKey ≠ utf8 "fail" ∧ other.responseKey ≠ utf8 "nope" := by
    intro other hother
    cases hother with
    | top hholders => cases hholders
    | @inner j operation _ _ hoperation hother hindex =>
      cases hoperation
      rcases j with _ | _ | j
      · cases hother
        decide
      · exact absurd rfl hindex
      · cases hother
  have hrun := runDocument_withAlias Schema.failing .plain (utf8 "nope") hnode hsiblings
  exact ⟨⟨hnode, hsiblings⟩, hrun.1.2, by decide +kernel⟩

end GraphQL
