/-
GraphQL.Proofs.Input.Bound — variables that are passed as whole arguments.

  §1 Binding    — a variable among those of an operation.
  §2 Supply     — a supplied value and the value that is bound.
  §3 Arguments  — an argument that is given a variable.
  §4 Reception  — what the resolver receives for it.

A variable's value is coerced when it is bound, and once more where the
variable is used. The second coercion always settles, and it changes nothing if
scalars keep what they give. A scalar that does not may refuse its own result.
-/
import GraphQL.Input.Variables
import GraphQL.Proofs.Input.FixedPoints
import GraphQL.Proofs.Value.Assignment
import GraphQL.Proofs.Value.Equality

namespace GraphQL

open MonadAttach (CanReturn)
open LawfulMonadAttach (canReturn_bind_imp' canReturn_map_imp' eq_of_canReturn_pure)

variable {m : Type → Type} [Monad m] [LawfulMonad m] [MonadAttach m] [LawfulMonadAttach m]
  {schema : Schema m} {supplied : Value}

/-! ## §1 Binding -/

namespace VariableBindings

variable {definitions : List VariableDefinition} {bound : VariableBindings}

/-- The bindings that variables make, each with its result. -/
def gathered (results : List (VariableDefinition × BindingResult)) : VariableBindings where
  values := assignAll [] (results.filterMap fun result => result.2.1.map (result.1.name, ·))
  errors := results.flatMap fun result => result.2.2

/-- The bindings that further variables make on top of those before. -/
def gatheredOnto (before : VariableBindings) (results : List (VariableDefinition × BindingResult)) :
    VariableBindings where
  values := assignAll before.values
    (results.filterMap fun result => result.2.1.map (result.1.name, ·))
  errors := before.errors ++ results.flatMap fun result => result.2.2

omit [Monad m] [LawfulMonad m] [MonadAttach m] [LawfulMonadAttach m] in
theorem gatheredOnto_nil (before : VariableBindings) : before.gatheredOnto [] = before := by
  rw [gatheredOnto, List.flatMap_nil, List.append_nil]
  rfl

omit [Monad m] [LawfulMonad m] [MonadAttach m] [LawfulMonadAttach m] in
/-- A result is added before those that come later. -/
theorem gatheredOnto_cons (before : VariableBindings) (definition : VariableDefinition)
    (result : BindingResult) (results : List (VariableDefinition × BindingResult)) :
    before.gatheredOnto ((definition, result) :: results) =
      (before.add definition.name result).gatheredOnto results := by
  obtain ⟨value, errors⟩ := result
  cases value <;> simp [gatheredOnto, add, assignAll_cons]

/-- Each variable has a result, and the bindings are gathered from these on top of those before. -/
theorem exists_results_of_bindFurther {before : VariableBindings}
    (h : CanReturn (bindFurther schema supplied before definitions) bound) :
    ∃ results : List (VariableDefinition × BindingResult), results.map (·.1) = definitions ∧
      (∀ result ∈ results, CanReturn (result.1.bind schema supplied) result.2) ∧
      bound = before.gatheredOnto results := by
  induction definitions generalizing before with
  | nil =>
    cases eq_of_canReturn_pure h
    exact ⟨[], rfl, List.forall_mem_nil _, (gatheredOnto_nil _).symm⟩
  | cons definition rest ih =>
    obtain ⟨result, hresult, h⟩ := canReturn_bind_imp' h
    obtain ⟨results, hrest, hresults, rfl⟩ := ih h
    exact ⟨(definition, result) :: results, by rw [List.map_cons, hrest],
      List.forall_mem_cons.2 ⟨hresult, hresults⟩, (gatheredOnto_cons ..).symm⟩

/-- The bindings of an operation are gathered from the results of its variables. -/
theorem exists_gathered (h : CanReturn (ofDefinitions schema supplied definitions) bound) :
    ∃ results : List (VariableDefinition × BindingResult), results.map (·.1) = definitions ∧
      (∀ result ∈ results, CanReturn (result.1.bind schema supplied) result.2) ∧
      bound = gathered results :=
  exists_results_of_bindFurther h

omit [Monad m] [LawfulMonad m] [MonadAttach m] [LawfulMonadAttach m] in
/-- Where names differ, the values are those of the results that have one, in order. -/
theorem values_gathered {results : List (VariableDefinition × BindingResult)}
    (hnames : ((results.map (·.1)).map (·.name)).Nodup) : (gathered results).values =
      results.filterMap fun result => result.2.1.map (result.1.name, ·) := by
  rw [List.map_map] at hnames
  exact assignAll_of_nodup (nodup_keys_filterMap hnames)

/-- Variables of different names are bound each on its own. -/
theorem exists_of_ofDefinitions (hnames : (definitions.map (·.name)).Nodup)
    (h : CanReturn (ofDefinitions schema supplied definitions) bound)
    {definition : VariableDefinition} (hmem : definition ∈ definitions) :
    ∃ errors, CanReturn (definition.bind schema supplied)
        (bound.values.lookup definition.name, errors) ∧
      ∀ record ∈ errors, record ∈ bound.errors := by
  obtain ⟨results, rfl, hresults, rfl⟩ := exists_gathered h
  obtain ⟨⟨definition, value, errors⟩, hresult, rfl⟩ := List.mem_map.1 hmem
  have hvalue : (gathered results).values.lookup definition.name = value := by
    rw [values_gathered hnames]
    rw [List.map_map] at hnames
    exact lookup_filterMap hnames hresult
  exact ⟨errors, by rw [hvalue]; exact hresults _ hresult,
    fun record hrecord => List.mem_flatMap.2 ⟨_, hresult, hrecord⟩⟩

end VariableBindings

/-! ## §2 Supply -/

namespace VariableDefinition

variable {definition : VariableDefinition} {type : TypeExpr TypeId} {value : Value}

omit [LawfulMonad m] [MonadAttach m] [LawfulMonadAttach m] in
/-- A supplied value is coerced to the type of its variable. -/
theorem bind_eq (htype : inputType? schema definition = some type)
    (hvalue : supplied.member? definition.name = some value) :
    definition.bind schema supplied = definition.settle <$>
      value.coerce schema (some definition.location) type definition.name := by
  rw [bind, htype, hvalue]
  rfl

/-- Input that fails leaves a record at the definition of its variable. -/
theorem exists_record_of_someFails {issues : List Issue} (h : SomeFails issues) :
    ∃ record ∈ (issues.filterMap issueMessage).map definition.record,
      record.locations = [definition.location] := by
  obtain ⟨⟨kind, path, typeName, location⟩, hissue, hfailing⟩ := h
  have hmessage : ∃ message, issueMessage ⟨kind, path, typeName, location⟩ = some message := by
    cases kind with
    | invalid => exact ⟨_, rfl⟩
    | missing => exact ⟨_, rfl⟩
    | unknown => cases hfailing
    | deprecated deprecation => cases hfailing
  obtain ⟨message, hmessage⟩ := hmessage
  exact ⟨definition.record message,
    List.mem_map_of_mem (List.mem_filterMap.2 ⟨_, hissue, hmessage⟩), rfl⟩

/-- A variable to which a value is supplied takes what this is coerced to, or
leaves a record at its definition. -/
theorem supply_of_bind (htype : inputType? schema definition = some type)
    (hvalue : supplied.member? definition.name = some value) {bound : Option Value}
    {errors : List ErrorRecord} (h : CanReturn (definition.bind schema supplied) (bound, errors)) :
    (bound = none → ∃ record ∈ errors, record.locations = [definition.location]) ∧
    ∀ result, bound = some result → ∃ issues, CanReturn
      (value.coerce schema (some definition.location) type definition.name)
      ⟨.ok result, issues⟩ := by
  rw [bind_eq htype hvalue] at h
  obtain ⟨⟨outcome, issues⟩, hcoerced, heq⟩ := canReturn_map_imp' h
  have hfollows := Value.coerce_follows schema (some definition.location) value _ _ _ hcoerced
  cases heq
  cases outcome with
  | ok result =>
    refine ⟨nofun, fun other hother => ?_⟩
    cases hother
    exact ⟨issues, hcoerced⟩
  | absent => exact hfollows.elim
  | failed => exact ⟨fun _ => exists_record_of_someFails hfollows, nofun⟩

end VariableDefinition

/-! ## §3 Arguments -/

/-- The field declares the argument with the type, and the node passes the
variable of the name as its whole value. -/
structure FieldType.Passes (field : FieldType m) (node : Field) (argument : Argument)
    (type : TypeExpr TypeId) (name : Bytes) : Prop where
  declared : field.argument? argument.name = some argument
  type_eq : argument.type = type
  given : ∃ entry location, node.arguments.find? (·.name == argument.name) = some entry ∧
    entry.value = .reference location name

/-- The argument takes the value: it is neither missing nor badly formed, and in
what the resolver is given, the value stands under the argument's name. -/
structure FieldType.Receives (schema : Schema m) (bindings : Members) (field : FieldType m)
    (node : Field) (argument : Argument) (value : Value) : Prop where
  clean : ∃ attempt, ArgumentAttempt.make schema bindings node.arguments argument = pure attempt ∧
    attempt.isMissing = false ∧ attempt.failures = []
  value : ∀ path verdict, CanReturn (checkArguments schema bindings field node path) verdict →
    (Value.object verdict.values).member? argument.name = some value

namespace ArgumentAttempt

variable {field : FieldType m} {node : Field} {argument : Argument} {type : TypeExpr TypeId}
  {name : Bytes} {bindings : Members} {value : Value}

variable (schema) in
omit [LawfulMonad m] [MonadAttach m] [LawfulMonadAttach m] in
/-- A variable that has a value is coerced like a value that is supplied. -/
theorem make_eq (hpasses : field.Passes node argument type name)
    (hvalue : bindings.lookup name = some value) :
    ∃ entry location, make schema bindings node.arguments argument =
      value.coerce schema (some location) type argument.name >>= fun coerced =>
        pure ⟨argument, some entry, coerced⟩ := by
  obtain ⟨entry, location, hentry, hreference⟩ := hpasses.given
  refine ⟨entry, location, ?_⟩
  rw [make, hentry]
  simp only [hreference, Literal.coerce, hvalue, hpasses.type_eq]

/-- An argument that is given a variable with a value is not missing. -/
theorem isMissing_of_make (hpasses : field.Passes node argument type name)
    (hvalue : bindings.lookup name = some value) {attempt : ArgumentAttempt}
    (h : CanReturn (make schema bindings node.arguments argument) attempt) :
    attempt.isMissing = false := by
  obtain ⟨entry, location, heq⟩ := make_eq schema hpasses hvalue
  rw [heq] at h
  obtain ⟨⟨outcome, issues⟩, hcoerced, h⟩ := canReturn_bind_imp' h
  have hfollows := Value.coerce_follows schema (some location) value _ _ _ hcoerced
  cases eq_of_canReturn_pure h
  cases outcome with
  | ok result => rfl
  | absent => exact hfollows.elim
  | failed => rfl

/-- An attempt is about its argument. -/
theorem argument_of_make {nodes : List (Entry Literal)} {attempt : ArgumentAttempt}
    (h : CanReturn (make schema bindings nodes argument) attempt) :
    attempt.argument = argument := by
  unfold make at h
  split at h
  · cases eq_of_canReturn_pure h
    rfl
  · obtain ⟨coerced, _, h⟩ := canReturn_bind_imp' h
    cases eq_of_canReturn_pure h
    rfl

/-- Notices do not make an argument badly formed. -/
theorem failures_eq_nil {entry : Option (Entry Literal)} {outcome : Outcome}
    {notices : List Issue} (h : ∀ issue ∈ notices, issue.IsNotice) :
    (ArgumentAttempt.mk argument entry ⟨outcome, notices⟩).failures = [] := by
  rw [failures, List.filter_eq_nil_iff]
  intro issue hissue
  obtain ⟨deprecation, hkind⟩ := h issue hissue
  simp [Issue.failing, hkind]

end ArgumentAttempt

/-- The value of an attempt is found under the name of its argument. -/
theorem lookup_argumentValues {bindings : Members} {nodes : List (Entry Literal)}
    {declared : List Argument} {argument : Argument} {attempt : ArgumentAttempt} {value : Value}
    (hdeclared : declared.find? (·.name == argument.name) = some argument)
    (hattempt : ArgumentAttempt.make schema bindings nodes argument = pure attempt)
    (hvalue : attempt.value? = some value) {attempts : List ArgumentAttempt}
    (h : CanReturn (declared.mapM (ArgumentAttempt.make schema bindings nodes)) attempts) :
    (argumentValues attempts).lookup argument.name = some value := by
  induction declared generalizing attempts with
  | nil => cases hdeclared
  | cons first declared ih =>
    rw [List.mapM_cons] at h
    obtain ⟨given, hgiven, h⟩ := canReturn_bind_imp' h
    obtain ⟨others, hothers, h⟩ := canReturn_bind_imp' h
    cases eq_of_canReturn_pure h
    have hargument := ArgumentAttempt.argument_of_make hgiven
    rw [List.find?_cons] at hdeclared
    split at hdeclared
    · cases hdeclared
      rw [hattempt] at hgiven
      cases eq_of_canReturn_pure hgiven
      simp [argumentValues, hvalue, hargument]
    -- An earlier argument has another name, and its value is passed over.
    · rename_i hne
      have hrest := ih hdeclared hothers
      have hskip : (argument.name == given.argument.name) = false := by
        rw [hargument, beq_eq_false_iff_ne]
        exact (beq_eq_false_iff_ne.1 hne).symm
      unfold argumentValues at hrest ⊢
      rw [List.filterMap_cons]
      cases given.value? with
      | none => exact hrest
      | some other =>
        rw [Option.map_some, List.lookup_cons, hskip]
        exact hrest

/-! ## §4 Reception -/

/-- A variable whose value comes back from coercion is received as it is bound. -/
theorem FieldType.Passes.receives {field : FieldType m} {node : Field} {argument : Argument}
    {type : TypeExpr TypeId} {name : Bytes} {bindings : Members} {value : Value}
    (hpasses : field.Passes node argument type name) (hvalue : bindings.lookup name = some value)
    (hkept : ∀ location, Coercion.Keeps type value (value.coerce schema location)) :
    field.Receives schema bindings node argument value := by
  obtain ⟨entry, location, heq⟩ := ArgumentAttempt.make_eq schema hpasses hvalue
  obtain ⟨notices, hnotices, hcoerced⟩ := hkept (some location) argument.name
  rw [hcoerced, pure_bind] at heq
  constructor
  case clean => exact ⟨_, heq, rfl, ArgumentAttempt.failures_eq_nil hnotices⟩
  case value =>
    intro path verdict h
    obtain ⟨attempts, hattempts, h⟩ := canReturn_bind_imp' h
    cases eq_of_canReturn_pure h
    exact lookup_argumentValues hpasses.declared heq rfl hattempts

/-- If scalars keep what they give and the defaults of input fields are coerced to
themselves, a value that coercion gives is received as it is bound. -/
theorem FieldType.Passes.receives_of_coerce {field : FieldType m} {node : Field}
    {argument : Argument} {type : TypeExpr TypeId} {name : Bytes} {bindings : Members}
    (hpasses : field.Passes node argument type name) (hscalars : schema.ScalarsIdempotent)
    (hfields : schema.DistinctFields) (hdefaults : schema.InputDefaultsKept)
    {value result : Value} {place : Option Location} {path : Bytes} {issues : List Issue}
    (hcoerced : CanReturn (value.coerce schema place type path) ⟨.ok result, issues⟩)
    (hresult : bindings.lookup name = some result) :
    field.Receives schema bindings node argument result := by
  refine hpasses.receives hresult fun location path => ?_
  obtain ⟨notices, hnotices, hkept, _⟩ :=
    (Value.conforms_of_coerce hscalars hfields hdefaults hcoerced).coerce_eq hscalars hfields
      location path
  exact ⟨notices, hnotices, hkept⟩

/-- A field that takes one argument. -/
def FieldType.taking (argument : Argument) : FieldType Id :=
  ⟨utf8 "show", .named 0, [argument], memberResolver (utf8 "show"), none, []⟩

/-- A selection of the field with the variable `name` for the argument. -/
def Field.passing (argument name : Bytes) : Field :=
  ⟨none, utf8 "show", [⟨argument, .reference ⟨1, 34⟩ name, ⟨1, 28⟩⟩], [], ⟨1, 23⟩⟩

theorem FieldType.passes_taking (argument : Argument) (name : Bytes) :
    (taking argument).Passes (.passing argument.name name) argument argument.type name where
  declared := by simp [taking, argument?]
  type_eq := rfl
  given := ⟨⟨argument.name, .reference ⟨1, 34⟩ name, ⟨1, 28⟩⟩, ⟨1, 34⟩,
    by simp [Field.passing], rfl⟩

/-- An argument of a scalar type. -/
def Argument.wrapped : Argument := ⟨utf8 "what", .named 5, none, none, []⟩

/-- A schema with a scalar that puts every value into an object. -/
def Schema.wrapping : Schema Id where
  types := Build.builtInTypes ++ [
    .of (utf8 "Wrapped") [] (.scalar fun value => return some (.object [(utf8 "got", value)])),
    .of (utf8 "RootQueryType") [] (.object [.taking .wrapped])]
  query := 6
  mutation := none

/-- A scalar that gives objects takes none, so that a variable of its type is
bound without a record and refused where it is used. -/
theorem VariableDefinition.badly_formed_of_wrapping :
    let definition : VariableDefinition := ⟨utf8 "x", .named (utf8 "Wrapped"), none, ⟨1, 8⟩⟩
    let supplied := Value.object [(utf8 "x", .int 1)]
    let bound : VariableBindings := ⟨[(utf8 "x", .object [(utf8 "got", .int 1)])], []⟩
    let node := Field.passing (utf8 "what") (utf8 "x")
    CanReturn (VariableBindings.ofDefinitions Schema.wrapping supplied [definition]) bound ∧
    inputType? Schema.wrapping definition = some Argument.wrapped.type ∧
    (FieldType.taking .wrapped).Passes node .wrapped Argument.wrapped.type definition.name ∧
    ∃ attempt, ArgumentAttempt.make Schema.wrapping bound.values node.arguments .wrapped =
        pure attempt ∧ attempt.failures ≠ [] := by
  intro definition supplied bound node
  have hbound : (VariableBindings.ofDefinitions Schema.wrapping supplied [definition]).run =
      Except.ok bound := by rfl
  refine ⟨hbound, by decide +kernel, FieldType.passes_taking .wrapped (utf8 "x"),
    ⟨.wrapped, some ⟨utf8 "what", .reference ⟨1, 34⟩ (utf8 "x"), ⟨1, 28⟩⟩,
      ⟨.failed, [⟨.invalid, utf8 "what", utf8 "Wrapped", some ⟨1, 34⟩⟩]⟩⟩, ?_, ?_⟩
  · rfl
  · simp [ArgumentAttempt.failures, Issue.failing]

end GraphQL
