/-
GraphQL.Proofs.Input.SuppliedNotices — what a check tells of deprecated fields.

  §1 Attempts   — what the coercion of one argument tells of.
  §2 Checks     — the notices among the errors of a check.
  §3 Variables  — an argument that is given a variable, or the value itself.

A value is completed with defaults when a variable is bound to it. Where the
variable is passed as an argument, deprecated fields in these defaults are told
of as if they had been supplied. The same value as a literal is not completed
before it is coerced, and the check tells of its own fields only.
-/
import GraphQL.Proofs.Execution.Returns
import GraphQL.Proofs.Input.Bound
import GraphQL.Proofs.Input.Notices
import GraphQL.Proofs.Value.Equality

namespace GraphQL

open MonadAttach (CanReturn)
open LawfulMonadAttach (canReturn_bind_imp' eq_of_canReturn_pure)

/-! ## §1 Attempts -/

/-- The notices about deprecated fields in the input of an argument. -/
def FieldSite.fieldNotices (site : FieldSite) (attempt : ArgumentAttempt) : List ErrorRecord :=
  attempt.coerced.issues.filterMap (site.issueNotice attempt)

/-- The notices are records of what the coercion tells of. -/
theorem FieldSite.messages_fieldNotices (site : FieldSite) (attempt : ArgumentAttempt) :
    (site.fieldNotices attempt).map (·.message) = attempt.coerced.notices := by
  rw [fieldNotices, Coerced.notices, List.map_filterMap]
  refine List.filterMap_congr fun issue _ => ?_
  unfold issueNotice Issue.notice?
  cases issue.kind <;> rfl

namespace ArgumentAttempt

variable {m : Type → Type} [Monad m] [LawfulMonad m] [MonadAttach m] [LawfulMonadAttach m]
  {schema : Schema m} {bindings : Members} {nodes : List (Entry Literal)} {argument : Argument}
  {attempt : ArgumentAttempt} {entry : Entry Literal}

/-- An attempt with a node has the outcome of the node's coercion. -/
theorem coerced_of_make (hentry : nodes.find? (·.name == argument.name) = some entry)
    (h : CanReturn (make schema bindings nodes argument) attempt) :
    CanReturn (entry.value.coerce schema bindings argument.type argument.name) attempt.coerced := by
  unfold make at h
  rw [hentry] at h
  obtain ⟨coerced, hcoerced, h⟩ := canReturn_bind_imp' h
  cases eq_of_canReturn_pure h
  exact hcoerced

/-- An argument without node has no issues. -/
theorem issues_eq_nil (h : CanReturn (make schema bindings nodes argument) attempt)
    (hnode : attempt.node = none) : attempt.coerced.issues = [] := by
  by_contra hissues
  obtain ⟨node, _, hsome⟩ := exists_node_of_issues h hissues
  rw [hnode] at hsome
  cases hsome

/-- An argument that is given a variable with a value: the check tells of the
deprecated fields in the value. -/
theorem notices_of_reference {location : Location} {name : Bytes} {value : Value}
    (hentry : nodes.find? (·.name == argument.name) = some entry)
    (hreference : entry.value = .reference location name)
    (hvalue : bindings.lookup name = some value)
    (h : CanReturn (make schema bindings nodes argument) attempt) :
    attempt.coerced.notices = (value.deprecatedUses schema argument.type).map
      (DeprecatedUse.message schema argument.name) := by
  have hcoerced := coerced_of_make hentry h
  rw [hreference, Literal.coerce, hvalue] at hcoerced
  exact (Value.coerce_notices schema (some location) value _ _ _ hcoerced).2

/-- An argument that is given a literal without variables: the check tells of the
deprecated fields in the value that the literal denotes. -/
theorem notices_of_constant (hentry : nodes.find? (·.name == argument.name) = some entry)
    (hconstant : entry.value.Constant)
    (h : CanReturn (make schema bindings nodes argument) attempt) :
    attempt.coerced.notices = (entry.value.denoted.deprecatedUses schema argument.type).map
      (DeprecatedUse.message schema argument.name) :=
  (Literal.coerce_notices schema bindings entry.value hconstant _ _ _
    (coerced_of_make hentry h)).2

end ArgumentAttempt

/-! ## §2 Checks -/

/-- The record is a notice about deprecated input. -/
def ErrorRecord.isInputNotice (record : ErrorRecord) : Bool :=
  match record.message with
  | .inputDeprecated _ _ _ _ => true
  | _ => false

namespace FieldSite

variable {m : Type → Type} (schema : Schema m) (site : FieldSite)

/-- The notices about an argument: that it is used, if a node supplies it, and
those about deprecated fields in it. -/
def attemptNotices (attempt : ArgumentAttempt) : List ErrorRecord :=
  (match attempt.node with
    | none => []
    | some node => site.argumentNotice schema node attempt.argument) ++ site.fieldNotices attempt

variable (attempts : List ArgumentAttempt)

theorem filter_missingReport :
    (site.missingReport schema attempts).filter ErrorRecord.isInputNotice = [] := by
  unfold missingReport
  dsimp only
  split
  · rfl
  · rw [List.filter_eq_nil_iff]
    intro record hrecord
    rcases List.mem_cons.1 hrecord with rfl | hrecord
    · simp [FieldSite.record, ErrorRecord.located, ErrorRecord.isInputNotice]
    · obtain ⟨attempt, _, rfl⟩ := List.mem_map.1 hrecord
      simp [missingRecord, ErrorRecord.located, ErrorRecord.isInputNotice]

theorem filter_undeclaredReport (declared : List Argument) (nodes : List (Entry Literal)) :
    (site.undeclaredReport declared nodes).filter ErrorRecord.isInputNotice = [] := by
  rw [List.filter_eq_nil_iff]
  intro record hrecord
  obtain ⟨node, _, rfl⟩ := List.mem_map.1 hrecord
  simp [ErrorRecord.located, ErrorRecord.isInputNotice]

theorem filter_malformedReport :
    (site.malformedReport attempts).filter ErrorRecord.isInputNotice = [] := by
  unfold malformedReport
  dsimp only
  split
  · rfl
  · rw [List.filter_eq_nil_iff]
    intro record hrecord
    rcases List.mem_cons.1 hrecord with rfl | hrecord
    · simp [FieldSite.record, ErrorRecord.located, ErrorRecord.isInputNotice]
    · obtain ⟨reports, hreports, hrecord⟩ := List.mem_flatten.1 hrecord
      obtain ⟨attempt, _, rfl⟩ := List.mem_map.1 hreports
      obtain ⟨issue, _, rfl⟩ := List.mem_map.1 hrecord
      unfold failureMessage
      split <;> simp [ErrorRecord.located, ErrorRecord.isInputNotice]

theorem filter_unknownReport :
    (site.unknownReport attempts).filter ErrorRecord.isInputNotice = [] := by
  rw [List.filter_eq_nil_iff]
  intro record hrecord
  obtain ⟨reports, hreports, hrecord⟩ := List.mem_flatten.1 hrecord
  obtain ⟨attempt, _, rfl⟩ := List.mem_map.1 hreports
  obtain ⟨issue, _, hrecord⟩ := List.mem_filterMap.1 hrecord
  split at hrecord
  · cases hrecord
    simp [ErrorRecord.located, ErrorRecord.isInputNotice]
  · cases hrecord

theorem filter_attemptNotices (attempt : ArgumentAttempt) :
    (site.attemptNotices schema attempt).filter ErrorRecord.isInputNotice =
      site.attemptNotices schema attempt := by
  rw [List.filter_eq_self]
  intro record hrecord
  rcases List.mem_append.1 hrecord with hrecord | hrecord
  · cases hnode : attempt.node with
    | none => simp [hnode] at hrecord
    | some node =>
      simp only [hnode, argumentNotice] at hrecord
      split at hrecord
      · cases hrecord
      · cases List.mem_singleton.1 hrecord
        rfl
  · obtain ⟨issue, _, hrecord⟩ := List.mem_filterMap.1 hrecord
    unfold issueNotice at hrecord
    split at hrecord
    · cases hrecord
      rfl
    · cases hrecord

variable {schema attempts}

/-- The report on what is deprecated goes from argument to argument. -/
theorem deprecatedReport_eq
    (h : ∀ attempt ∈ attempts, attempt.node = none → attempt.coerced.issues = []) :
    site.deprecatedReport schema attempts = attempts.flatMap (site.attemptNotices schema) := by
  rw [deprecatedReport, ← List.flatMap_def]
  refine List.flatMap_congr fun attempt hattempt => ?_
  unfold attemptNotices fieldNotices
  cases hnode : attempt.node with
  | none => simp [h attempt hattempt hnode]
  | some node => rfl

end FieldSite

variable {m : Type → Type} [Monad m] [LawfulMonad m] [MonadAttach m] [LawfulMonadAttach m]
  {schema : Schema m} {bindings : Members} {field : FieldType m} {node : Field}

/-- Results of a list of steps are results of the steps, one by one. -/
theorem forall₂_of_canReturn_mapM {α β : Type} {f : α → Engine m β} {as : List α} {bs : List β}
    (h : CanReturn (as.mapM f) bs) : List.Forall₂ (fun a b => CanReturn (f a) b) as bs := by
  induction as generalizing bs with
  | nil =>
    rw [List.mapM_nil] at h
    cases eq_of_canReturn_pure h
    exact .nil
  | cons a as ih =>
    rw [List.mapM_cons] at h
    obtain ⟨b, hfirst, h⟩ := canReturn_bind_imp' h
    obtain ⟨rest, hrest, h⟩ := canReturn_bind_imp' h
    cases eq_of_canReturn_pure h
    exact .cons hfirst (ih hrest)

/-- The notices about deprecated input among the errors of a check are those about
its arguments, in the order of their declarations. -/
theorem checkArguments_notices {path : ResponsePath} {verdict : ArgumentVerdict}
    (h : CanReturn (checkArguments schema bindings field node path) verdict) :
    ∃ attempts, List.Forall₂ (fun argument attempt =>
        CanReturn (ArgumentAttempt.make schema bindings node.arguments argument) attempt)
        field.arguments attempts ∧
      verdict.errors.filter ErrorRecord.isInputNotice =
        attempts.flatMap (FieldSite.attemptNotices schema ⟨field.name, node.location, path⟩) := by
  obtain ⟨attempts, hattempts, h⟩ := canReturn_bind_imp' h
  cases eq_of_canReturn_pure h
  have hmade := forall₂_of_canReturn_mapM hattempts
  refine ⟨attempts, hmade, ?_⟩
  have hissues : ∀ attempt ∈ attempts, attempt.node = none → attempt.coerced.issues = [] := by
    intro attempt hattempt hnode
    obtain ⟨argument, _, hmake⟩ := exists_of_mem_right hmade hattempt
    exact ArgumentAttempt.issues_eq_nil hmake hnode
  simp only [List.filter_append, FieldSite.filter_missingReport,
    FieldSite.filter_undeclaredReport, FieldSite.filter_malformedReport,
    FieldSite.filter_unknownReport, List.nil_append]
  rw [FieldSite.deprecatedReport_eq _ hissues, List.filter_flatMap]
  exact List.flatMap_congr fun attempt _ => FieldSite.filter_attemptNotices _ _ attempt

/-! ## §3 Variables -/

/-- The check of the field's arguments comes to a result, and its notices about
deprecated input are those about the arguments, one after the other. For this
argument, what they say of deprecated fields in it is one message for each of
the uses, in order. -/
structure FieldType.Notices (schema : Schema m) (bindings : Members) (field : FieldType m)
    (node : Field) (argument : Argument) (uses : List DeprecatedUse) : Prop where
  returns : ∀ path, Returns (checkArguments schema bindings field node path)
  reported : ∀ path verdict,
    CanReturn (checkArguments schema bindings field node path) verdict →
    ∃ attempts, List.Forall₂ (fun argument attempt =>
        CanReturn (ArgumentAttempt.make schema bindings node.arguments argument) attempt)
        field.arguments attempts ∧
      verdict.errors.filter ErrorRecord.isInputNotice =
        attempts.flatMap (FieldSite.attemptNotices schema ⟨field.name, node.location, path⟩)
  told : ∀ attempt,
    CanReturn (ArgumentAttempt.make schema bindings node.arguments argument) attempt →
    ∀ site : FieldSite, (site.fieldNotices attempt).map (·.message) =
      uses.map (DeprecatedUse.message schema argument.name)

/-- A variable to which a value is supplied is bound to what the value is coerced to. -/
theorem VariableDefinition.coerces_of_bound {supplied : Value}
    {definitions : List VariableDefinition} (hnames : (definitions.map (·.name)).Nodup)
    {bound : VariableBindings}
    (hbound : CanReturn (VariableBindings.ofDefinitions schema supplied definitions) bound)
    {definition : VariableDefinition} (hmem : definition ∈ definitions)
    {type : TypeExpr TypeId} (htype : inputType? schema definition = some type)
    {value : Value} (hvalue : supplied.member? definition.name = some value) {result : Value}
    (hresult : bound.values.lookup definition.name = some result) :
    Coerces schema type value result := by
  obtain ⟨errors, hbind, _⟩ := VariableBindings.exists_of_ofDefinitions hnames hbound hmem
  obtain ⟨issues, hcoerced⟩ := (supply_of_bind htype hvalue hbind).2 result hresult
  exact Value.coerces_of_canReturn hcoerced

/-- Where a variable of an argument's type is passed as the whole argument, the
check tells of the deprecated fields in the supplied value, each of them once,
and of those in the defaults that complete it. So it tells of supplied fields
only if and only if no deprecated field has been added by a default. What stood
for a list of one in the supplied value is told of as its item. The same value
as a literal is told of as it stands. -/
theorem Definitions.notices_of_build [MonadLog m] {definitions : Definitions m}
    (hscalars : definitions.CoercersReturn) (hbuild : CanReturn definitions.build schema)
    {owner : TypeId} {fields : List (FieldType m)}
    (hobject : schema.body? owner = some (.object fields)) (hfield : field ∈ fields)
    {supplied : Value} {declared : List VariableDefinition}
    (hnames : (declared.map (·.name)).Nodup) {bound : VariableBindings}
    (hbound : CanReturn (VariableBindings.ofDefinitions schema supplied declared) bound)
    {definition : VariableDefinition} (hmem : definition ∈ declared) {type : TypeExpr TypeId}
    (htype : definition.inputType? schema = some type) {value : Value}
    (hvalue : supplied.member? definition.name = some value) {result : Value}
    (hresult : bound.values.lookup definition.name = some result) {argument : Argument}
    (hpasses : field.Passes node argument type definition.name) :
    let uses := value.deprecatedUses schema type
    let completed := value.completedUses schema type
    (∀ use, use ∈ uses ↔ value.ContainsUse schema type use) ∧
    (uses.map DeprecatedUse.steps).Nodup ∧
    completed.filter (!·.filled) = uses.map .settled ∧
    (completed = uses.map .settled ↔ ∀ use ∈ completed, use.filled = false) ∧
    field.Notices schema bound.values node argument completed ∧
    ∀ (written : Field) (entry : Entry Literal) (bindings : Members),
      written.arguments.find? (·.name == argument.name) = some entry → entry.value.Constant →
      entry.value.denoted = value → field.Notices schema bindings written argument uses := by
  intro uses completed
  have hfields := distinctFields_of_build hbuild
  have hclosed := closed_of_build hbuild
  have hcoercers := coercersReturn_of_build hscalars hbuild
  have hgiven : completed.filter (!·.filled) = uses.map .settled :=
    value.filter_completedUses type
  have hreturns : ∀ bindings (other : Field) path,
      Returns (checkArguments schema bindings field other path) := by
    intro bindings other path
    obtain ⟨_, htake⟩ := hclosed.body owner _ hobject field hfield
    exact checkArguments_returns hclosed hcoercers bindings other path htake
  obtain ⟨rfl⟩ := hpasses.type_eq
  refine ⟨fun use => Value.mem_deprecatedUses, Value.nodup_deprecatedUses hfields value _, hgiven,
    ?_, ?_, ?_⟩
  · rw [← hgiven, eq_comm, List.filter_eq_self]
    simp
  · refine ⟨hreturns _ node, fun _ _ => checkArguments_notices, fun attempt hattempt site => ?_⟩
    obtain ⟨entry, location, hentry, hreference⟩ := hpasses.given
    have hcoerces := VariableDefinition.coerces_of_bound hnames hbound hmem htype hvalue hresult
    calc (site.fieldNotices attempt).map (·.message)
      _ = attempt.coerced.notices := site.messages_fieldNotices attempt
      _ = (result.deprecatedUses schema argument.type).map
            (DeprecatedUse.message schema argument.name) :=
          ArgumentAttempt.notices_of_reference hentry hreference hresult hattempt
      _ = (completed.map .asGiven).map (DeprecatedUse.message schema argument.name) := by
          rw [hcoerces.deprecatedUses_eq hfields]
      _ = completed.map (DeprecatedUse.message schema argument.name) := by
          rw [List.map_map]
          rfl
  · intro written entry bindings hentry hconstant hdenoted
    refine ⟨hreturns _ written, fun _ _ => checkArguments_notices, fun attempt hattempt site => ?_⟩
    rw [site.messages_fieldNotices,
      ArgumentAttempt.notices_of_constant hentry hconstant hattempt, hdenoted]

/-- An argument of an input object type. -/
def Argument.filter : Argument := ⟨utf8 "filter", .named 6, none, none, []⟩

/-- Definitions of filters. Both fields of a filter are deprecated, and one of
them has a default. -/
def Definitions.searching : Definitions Id where
  scalars := []
  objects := [⟨fallbackQueryType, [], [⟨utf8 "show", utf8 "String",
    [⟨utf8 "filter", utf8 "Filter", none, none, []⟩], none, none, []⟩]⟩]
  inputs := [⟨utf8 "Filter", [], [⟨utf8 "limit", utf8 "Int", some (.int 10), some ⟨none⟩, []⟩,
    ⟨utf8 "labels", utf8 "[String]", none, some ⟨none⟩, []⟩]⟩]
  queryType := none
  mutationType := none

/-- The schema that these definitions give. -/
def Schema.searching : Schema Id where
  types := Build.builtInTypes ++ [
    .of fallbackQueryType [] (.object [.taking .filter]),
    .of (utf8 "Filter") [] (.inputObject [
      ⟨utf8 "limit", .named 1, some (.int 10), some ⟨none⟩, []⟩,
      ⟨utf8 "labels", .list (.named 0), none, some ⟨none⟩, []⟩])]
  query := 5
  mutation := none

namespace Definitions

theorem coercersReturn_searching : searching.CoercersReturn := nofun

theorem build_searching : CanReturn searching.build Schema.searching := by
  have hwritten : Build.arena searching = .ok (.ofTypes Schema.searching.types) := by rfl
  have hsettled : (Build.settleDefaults (.ofTypes Schema.searching.types)).run =
      Except.ok (.ofTypes Schema.searching.types) := by rfl
  exact build_of_passes hwritten hsettled rfl

theorem body?_searching :
    Schema.searching.body? 5 = some (.object [FieldType.taking .filter]) := rfl

/-- Labels are told of because they are supplied, and the limit because a default
has added it. -/
theorem notices_of_build_searching :
    let value := Value.object [(utf8 "labels", .string (utf8 "a"))]
    let definition : VariableDefinition := ⟨utf8 "f", .named (utf8 "Filter"), none, ⟨1, 8⟩⟩
    let supplied := Value.object [(utf8 "f", value)]
    let result := Value.object
      [(utf8 "limit", .int 10), (utf8 "labels", .list [.string (utf8 "a")])]
    let bound : VariableBindings := ⟨[(utf8 "f", result)], []⟩
    let field := FieldType.taking .filter
    let node := Field.passing (utf8 "filter") (utf8 "f")
    let labels : DeprecatedUse := ⟨[.field (utf8 "labels")], .list (.named 0), ⟨none⟩, false⟩
    let limit : DeprecatedUse := ⟨[.field (utf8 "limit")], .named 1, ⟨none⟩, true⟩
    (searching.CoercersReturn ∧ CanReturn searching.build Schema.searching ∧
      Schema.searching.body? 5 = some (.object [field]) ∧ ([definition].map (·.name)).Nodup ∧
      CanReturn (VariableBindings.ofDefinitions Schema.searching supplied [definition]) bound ∧
      definition.inputType? Schema.searching = some Argument.filter.type ∧
      supplied.member? definition.name = some value ∧
      bound.values.lookup definition.name = some result ∧
      field.Passes node .filter Argument.filter.type definition.name) ∧
    value.deprecatedUses Schema.searching (.named 6) = [labels] ∧
    field.Notices Schema.searching bound.values node .filter [limit, labels] := by
  intro value definition supplied result bound field node labels limit
  have hnames : ([definition].map (·.name)).Nodup := List.nodup_singleton _
  have htype : definition.inputType? Schema.searching = some Argument.filter.type := by rfl
  have hvalue : supplied.member? definition.name = some value := by rfl
  have hcoerced : (value.coerce Schema.searching (some definition.location) Argument.filter.type
      definition.name).run = Except.ok ⟨.ok result,
        [⟨.deprecated ⟨none⟩, utf8 "f.labels", utf8 "[String]", some ⟨1, 8⟩⟩]⟩ := by rfl
  -- The notice at binding is dropped.
  have hbind : definition.bind Schema.searching supplied = pure (some result, []) := by
    rw [VariableDefinition.bind_eq htype hvalue]
    apply ExceptT.ext
    rw [ExceptT.run_map, hcoerced]
    rfl
  have hbound : (VariableBindings.ofDefinitions Schema.searching supplied [definition]).run =
      Except.ok bound := by
    rw [VariableBindings.ofDefinitions, VariableBindings.bindFurther, hbind]
    rfl
  have hresult : bound.values.lookup definition.name = some result := by rfl
  have hpasses := FieldType.passes_taking .filter (utf8 "f")
  refine ⟨⟨coercersReturn_searching, build_searching, body?_searching, hnames, hbound, htype,
    hvalue, hresult, hpasses⟩, by rfl, ?_⟩
  have hcompleted : value.completedUses Schema.searching (.named 6) = [limit, labels] := by rfl
  rw [← hcompleted]
  exact (notices_of_build coercersReturn_searching build_searching body?_searching
    List.mem_cons_self hnames hbound List.mem_cons_self htype hvalue hresult hpasses).2.2.2.2.1

/-- A filter without fields is completed with a limit, which the check tells of. So
it does not tell of supplied fields only. -/
theorem not_notices_searching :
    let value := Value.object []
    let definition : VariableDefinition := ⟨utf8 "f", .named (utf8 "Filter"), none, ⟨1, 8⟩⟩
    let supplied := Value.object [(utf8 "f", value)]
    let bound : VariableBindings := ⟨[(utf8 "f", .object [(utf8 "limit", .int 10)])], []⟩
    let field := FieldType.taking .filter
    let node := Field.passing (utf8 "filter") (utf8 "f")
    let uses := value.deprecatedUses Schema.searching (.named 6)
    (CanReturn searching.build Schema.searching ∧
      Schema.searching.body? 5 = some (.object [field]) ∧
      CanReturn (VariableBindings.ofDefinitions Schema.searching supplied [definition]) bound ∧
      definition.inputType? Schema.searching = some Argument.filter.type ∧
      supplied.member? definition.name = some value ∧
      field.Passes node .filter Argument.filter.type definition.name) ∧
    uses = [] ∧ ¬ field.Notices Schema.searching bound.values node .filter (uses.map .settled) := by
  intro value definition supplied bound field node uses
  have hbound : (VariableBindings.ofDefinitions Schema.searching supplied [definition]).run =
      Except.ok bound := by rfl
  have huses : uses = [] := by rfl
  refine ⟨⟨build_searching, body?_searching, hbound, by rfl, by rfl,
    FieldType.passes_taking .filter _⟩, huses, fun hnotices => ?_⟩
  let attempt : ArgumentAttempt :=
    ⟨.filter, some ⟨utf8 "filter", .reference ⟨1, 34⟩ (utf8 "f"), ⟨1, 28⟩⟩,
      ⟨.ok (.object [(utf8 "limit", .int 10)]),
        [⟨.deprecated ⟨none⟩, utf8 "filter.limit", utf8 "Int", some ⟨1, 34⟩⟩]⟩⟩
  have hattempt : (ArgumentAttempt.make Schema.searching bound.values node.arguments
      .filter).run = Except.ok attempt := by rfl
  have htold := hnotices.told attempt hattempt ⟨utf8 "show", ⟨1, 23⟩, []⟩
  rw [huses] at htold
  cases htold

end Definitions

end GraphQL
