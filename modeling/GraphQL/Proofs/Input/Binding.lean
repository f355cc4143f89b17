/-
GraphQL.Proofs.Input.Binding — the variables of an operation, bound each by itself.

  §1 Parts      — a variable is bound by its definition and its own member.
  §2 Attempts   — what is coerced for a variable, and what becomes of it.
  §3 Lists      — all variables of an operation.
  §4 Schemas    — operations of a schema that is built.

What is supplied is looked at through the name of one variable at a time. So the
bindings of an operation are put together from those of its variables, and none of
them knows of the others.
-/
import GraphQL.Proofs.Execution.Responses
import GraphQL.Proofs.Input.Failures
import GraphQL.Proofs.Schema.Consistent
import GraphQL.Proofs.Value.Equality

namespace GraphQL

open MonadAttach (CanReturn)
open LawfulMonadAttach (canReturn_bind_imp' canReturn_map_imp' eq_of_canReturn_pure)

variable {m : Type → Type} [Monad m]

/-! ## §1 Parts -/

/-- The value of a variable and the records about it, by what is supplied for it alone. -/
def VariableDefinition.bindOwn (schema : Schema m) (definition : VariableDefinition)
    (given : Option Value) : Engine m BindingResult :=
  match definition.inputType? schema with
  | none => return (none, [definition.record (.typeUnknown definition.name definition.type)])
  | some type => definition.bindAt schema given type

theorem VariableDefinition.bind_eq_bindOwn (schema : Schema m) (supplied : Value)
    (definition : VariableDefinition) : definition.bind schema supplied =
      definition.bindOwn schema (supplied.member? definition.name) := rfl

theorem VariableBindings.bindFurther_eq [LawfulMonad m] (schema : Schema m) (supplied : Value)
    (before : VariableBindings) (declared : List VariableDefinition) :
    bindFurther schema supplied before declared =
      before.gatheredOnto <$> declared.mapM fun definition =>
        (definition, ·) <$> definition.bindOwn schema (supplied.member? definition.name) := by
  induction declared generalizing before with
  | nil => simp only [bindFurther, List.mapM_nil, map_pure, gatheredOnto_nil]
  | cons definition rest ih =>
    simp only [bindFurther, ih, List.mapM_cons, VariableDefinition.bind_eq_bindOwn, map_bind,
      bind_map_left, bind_pure_comp, Functor.map_map, gatheredOnto_cons]

/-- The bindings of an operation are gathered from those of its variables, in order. -/
theorem VariableBindings.ofDefinitions_eq [LawfulMonad m] (schema : Schema m) (supplied : Value)
    (declared : List VariableDefinition) :
    ofDefinitions schema supplied declared = gathered <$> declared.mapM fun definition =>
      (definition, ·) <$> definition.bindOwn schema (supplied.member? definition.name) :=
  bindFurther_eq schema supplied ⟨[], []⟩ declared

/-! ## §2 Attempts -/

/-- The value that a coercion gives. -/
def Coerced.value? (coerced : Coerced) : Option Value :=
  match coerced.outcome with
  | .ok value => some value
  | _ => none

/-- The value that what was coerced for a variable gives. -/
def attemptValue? (attempt : Option Coerced) : Option Value := attempt.bind Coerced.value?

variable [MonadAttach m]

/-- What is coerced for a variable, given what is supplied for it. The type of the variable
has to be a scalar or an input object, under wrappers. -/
inductive VariableDefinition.Attempt (schema : Schema m) (definition : VariableDefinition)
    (given : Option Value) : Option Coerced → Prop where
  /-- A supplied value. -/
  | supplied {type : TypeExpr TypeId} {value : Value} {coerced : Coerced}
    (understood : schema.understand? definition.type = some type)
    (takes : schema.TakesInput type.leaf) (supplied : given = some value)
    (returned : CanReturn
      (value.coerce schema (some definition.location) type definition.name) coerced) :
    Attempt schema definition given (some coerced)
  /-- The default, where no value is supplied. -/
  | default {type : TypeExpr TypeId} {literal : Literal} {coerced : Coerced}
    (understood : schema.understand? definition.type = some type)
    (takes : schema.TakesInput type.leaf) (unsupplied : given = none)
    (default : definition.default = some literal)
    (returned : CanReturn (literal.coerce schema [] type definition.name) coerced) :
    Attempt schema definition given (some coerced)
  /-- Nothing, as there is neither. -/
  | nothing {type : TypeExpr TypeId} (understood : schema.understand? definition.type = some type)
    (takes : schema.TakesInput type.leaf) (unsupplied : given = none)
    (noDefault : definition.default = none) : Attempt schema definition given none
  /-- Nothing, as the type takes no input. -/
  | refused (refused : ∀ type, schema.understand? definition.type = some type →
      ¬ schema.TakesInput type.leaf) : Attempt schema definition given none

namespace VariableDefinition

variable {schema : Schema m} {definition : VariableDefinition} {given value : Option Value}
  {errors : List ErrorRecord}

/-- A record about the variable: at its definition, and at no path. -/
def Records (definition : VariableDefinition) (record : ErrorRecord) : Prop :=
  record.locations = [definition.location] ∧ record.path = none

/-- Nothing was asked of the variable: it may be null, and no value is there for it. -/
structure Unasked (definition : VariableDefinition) (given : Option Value) : Prop where
  nullable : definition.type.isNonNull = false
  unsupplied : given = none
  noDefault : definition.default = none

/-- What becomes of a variable: it has the value of what was coerced for it, and it has
records, which are about it, if it has no value and something was asked of it. -/
structure Settled (definition : VariableDefinition) (given : Option Value)
    (attempt : Option Coerced) (value : Option Value) (errors : List ErrorRecord) : Prop where
  value_eq : value = attemptValue? attempt
  records : ∀ record ∈ errors, definition.Records record
  unbound : value = none → errors ≠ [] ∨ definition.Unasked given

theorem settled_of_settle {coerced : Coerced} (htold : coerced.Told)
    (hsettled : coerced.outcome ≠ .absent) :
    definition.Settled given (some coerced) (definition.settle coerced).1
      (definition.settle coerced).2 where
  value_eq := rfl
  records := List.forall_mem_map.2 fun message _ => ⟨rfl, rfl⟩
  unbound hnone := by
    obtain ⟨outcome, issues⟩ := coerced
    cases outcome with
    | ok value => cases hnone
    | absent => exact absurd rfl hsettled
    | failed =>
      obtain ⟨record, hrecord, _⟩ := exists_record_of_someFails (htold.1 rfl)
      exact .inl (List.ne_nil_of_mem hrecord)

omit [Monad m] [MonadAttach m] in
theorem refused_of_inputType? (h : definition.inputType? schema = none) {type : TypeExpr TypeId}
    (hunderstood : schema.understand? definition.type = some type) :
    ¬ schema.TakesInput type.leaf := by
  rintro ⟨body, hbody, hsort⟩
  rw [inputType?, hunderstood, Option.filter_eq_none_iff] at h
  have hobject := h type rfl
  rw [Schema.isObjectType_eq, hbody] at hobject
  simp [hsort] at hobject

/-- One coercion is made for a variable at most, and it tells what becomes of the variable. -/
theorem exists_attempt_of_bindOwn [LawfulMonad m] [LawfulMonadAttach m]
    (hplain : ∀ literal ∈ definition.default, literal.isReference = false)
    (h : CanReturn (definition.bindOwn schema given) (value, errors)) :
    ∃ attempt, definition.Attempt schema given attempt ∧
      definition.Settled given attempt value errors := by
  unfold bindOwn at h
  cases htype : definition.inputType? schema with
  | none =>
    rw [htype] at h
    cases eq_of_canReturn_pure h
    refine ⟨none, .refused fun type => refused_of_inputType? htype, rfl, ?_, by simp⟩
    exact List.forall_mem_singleton.2 ⟨rfl, rfl⟩
  | some type =>
    have hunderstood := (Option.filter_eq_some_iff.1 htype).1
    have htakes := takesInput_of_inputType? htype
    rw [htype] at h
    unfold bindAt at h
    cases given with
    | some supplied =>
      obtain ⟨coerced, hcoerced, heq⟩ := canReturn_map_imp' h
      cases heq
      refine ⟨some coerced, .supplied hunderstood htakes rfl hcoerced, ?_⟩
      exact settled_of_settle (Value.told_of_coerce hcoerced) (Value.outcome_ne_absent hcoerced)
    | none =>
      cases hdefault : definition.default with
      | some literal =>
        rw [hdefault] at h
        obtain ⟨coerced, hcoerced, heq⟩ := canReturn_map_imp' h
        cases heq
        refine ⟨some coerced, .default hunderstood htakes rfl hdefault hcoerced, ?_⟩
        exact settled_of_settle (Literal.told_of_coerce hcoerced)
          (Literal.settledAt_of_coerce (hplain literal hdefault) hcoerced).settled
      | none =>
        refine ⟨none, .nothing hunderstood htakes rfl hdefault, ?_⟩
        simp only [hdefault, isNonNull_of_inputType? htype] at h
        split at h
        · cases eq_of_canReturn_pure h
          exact ⟨rfl, List.forall_mem_singleton.2 ⟨rfl, rfl⟩, by simp⟩
        · rename_i hnullable
          cases eq_of_canReturn_pure h
          exact ⟨rfl, List.forall_mem_nil _,
            fun _ => .inr ⟨by simpa using hnullable, rfl, hdefault⟩⟩

end VariableDefinition

/-! ## §3 Lists -/

/-- Bindings are exactly what becomes of the variables, each by what was coerced for it. -/
structure VariableBindings.Exact (schema : Schema m) (supplied : Value)
    (declared : List VariableDefinition) (attempts : List (VariableDefinition × Option Coerced))
    (bound : VariableBindings) : Prop where
  declared_eq : attempts.map (·.1) = declared
  attempted : ∀ entry ∈ attempts,
    entry.1.Attempt schema (supplied.member? entry.1.name) entry.2
  /-- The values are those of coercions that give one, in the order of the definitions. -/
  values_eq : bound.values =
    attempts.filterMap fun entry => (attemptValue? entry.2).map (entry.1.name, ·)
  /-- A variable without value has a record, unless nothing was asked of it. -/
  unbound : ∀ entry ∈ attempts, attemptValue? entry.2 = none →
    (∃ record ∈ bound.errors, entry.1.Records record) ∨
      entry.1.Unasked (supplied.member? entry.1.name)
  records : ∀ record ∈ bound.errors, ∃ definition ∈ declared, definition.Records record

namespace VariableBindings

variable {schema : Schema m} {supplied : Value} {declared : List VariableDefinition}
  {bound : VariableBindings} {attempts : List (VariableDefinition × Option Coerced)}

/-- Each result is what becomes of its variable. -/
theorem exists_attempts [LawfulMonad m] [LawfulMonadAttach m]
    {results : List (VariableDefinition × BindingResult)}
    (hplain : ∀ result ∈ results, ∀ literal ∈ result.1.default, literal.isReference = false)
    (h : ∀ result ∈ results, CanReturn (result.1.bind schema supplied) result.2) :
    ∃ attempts : List (VariableDefinition × Option Coerced),
      List.Forall₂ (fun result entry => entry.1 = result.1 ∧
        entry.1.Attempt schema (supplied.member? entry.1.name) entry.2 ∧
        entry.1.Settled (supplied.member? entry.1.name) entry.2 result.2.1 result.2.2)
        results attempts := by
  induction results with
  | nil => exact ⟨[], .nil⟩
  | cons result rest ih =>
    obtain ⟨hfirst, hrest⟩ := List.forall_mem_cons.1 hplain
    obtain ⟨hresult, h⟩ := List.forall_mem_cons.1 h
    obtain ⟨attempt, hattempt, hsettled⟩ :=
      VariableDefinition.exists_attempt_of_bindOwn hfirst hresult
    obtain ⟨attempts, hattempts⟩ := ih hrest h
    exact ⟨(result.1, attempt) :: attempts, .cons ⟨rfl, hattempt, hsettled⟩ hattempts⟩

/-- What is bound is what becomes of the variables. -/
theorem exists_exact [LawfulMonad m] [LawfulMonadAttach m]
    (hnames : (declared.map (·.name)).Nodup)
    (hplain : ∀ definition ∈ declared, ∀ literal ∈ definition.default,
      literal.isReference = false)
    (h : CanReturn (ofDefinitions schema supplied declared) bound) :
    ∃ attempts, Exact schema supplied declared attempts bound := by
  obtain ⟨results, rfl, hresults, rfl⟩ := exists_gathered h
  obtain ⟨attempts, hattempts⟩ := exists_attempts (List.forall_mem_map.1 hplain) hresults
  refine ⟨attempts, ?_, ?_, ?_, ?_, ?_⟩
  · exact (map_eq_of_forall₂ hattempts fun _ _ h => h.1.symm).symm
  · intro entry hentry
    obtain ⟨result, _, -, hattempt, -⟩ := exists_of_mem_right hattempts hentry
    exact hattempt
  · rw [values_gathered hnames]
    exact filterMap_eq_of_forall₂ hattempts fun _ _ h => by rw [h.1, h.2.2.value_eq]
  · intro entry hentry hnone
    obtain ⟨result, hresult, heq, -, hsettled⟩ := exists_of_mem_right hattempts hentry
    refine (hsettled.unbound (hsettled.value_eq.trans hnone)).imp_left fun hne => ?_
    obtain ⟨record, hrecord⟩ := List.exists_mem_of_ne_nil _ hne
    exact ⟨record, List.mem_flatMap.2 ⟨result, hresult, hrecord⟩, hsettled.records record hrecord⟩
  · intro record hrecord
    obtain ⟨result, hresult, hrecord⟩ := List.mem_flatMap.1 hrecord
    obtain ⟨entry, _, heq, -, hsettled⟩ := exists_of_mem_left hattempts hresult
    exact ⟨result.1, List.mem_map_of_mem hresult, heq ▸ hsettled.records record hrecord⟩

/-- Where names differ, each variable is found with its own value. -/
theorem Exact.lookup_eq (h : Exact schema supplied declared attempts bound)
    (hnames : (declared.map (·.name)).Nodup) : ∀ entry ∈ attempts,
    bound.values.lookup entry.1.name = attemptValue? entry.2 := by
  rw [← h.declared_eq, List.map_map] at hnames
  rw [h.values_eq]
  exact fun entry hentry => lookup_filterMap hnames hentry

omit [MonadAttach m] in
/-- What is supplied for other names is not looked at. -/
theorem ofDefinitions_congr {other : Value} (hsame : ∀ definition ∈ declared,
    other.member? definition.name = supplied.member? definition.name) :
    ofDefinitions schema other declared = ofDefinitions schema supplied declared := by
  rw [ofDefinitions, ofDefinitions]
  generalize (⟨[], []⟩ : VariableBindings) = before
  induction declared generalizing before with
  | nil => rfl
  | cons definition rest ih =>
    obtain ⟨hfirst, hrest⟩ := List.forall_mem_cons.1 hsame
    rw [bindFurther, bindFurther, VariableDefinition.bind_eq_bindOwn, hfirst]
    exact bind_congr fun result => ih hrest _

/-- The name is that of a variable. -/
def isDeclared (declared : List VariableDefinition) (name : Bytes) : Bool :=
  declared.any (·.name == name)

omit [MonadAttach m] in
/-- Members that are not declared can be left out, and the others come in any order. -/
theorem ofDefinitions_perm {members others : Members} (hkeys : (members.map (·.1)).Nodup)
    (hperm : (members.filter fun member => isDeclared declared member.1).Perm
      (others.filter fun member => isDeclared declared member.1)) :
    ofDefinitions schema (.object others) declared =
      ofDefinitions schema (.object members) declared := by
  refine ofDefinitions_congr fun definition hdefinition => ?_
  have hdeclared : isDeclared declared definition.name = true :=
    List.any_eq_true.2 ⟨definition, hdefinition, by simp⟩
  have hfiltered : ((members.filter fun member => isDeclared declared member.1).map (·.1)).Nodup :=
    hkeys.sublist (List.filter_sublist.map _)
  simp only [Value.member?]
  rw [← lookup_filter hdeclared, ← lookup_perm hfiltered hperm, lookup_filter hdeclared]

end VariableBindings

/-! ## §4 Schemas -/

section Pure

variable [LawfulMonad m] {schema : Schema m}

omit [MonadAttach m] in
/-- Computations that are results compose. -/
theorem composes_pure : Composes (m := m) fun _ x => ∃ a, x = pure a where
  pure a := ⟨a, rfl⟩
  bind := by
    rintro _ _ _ f ⟨a, rfl⟩ hf
    obtain ⟨b, hb⟩ := hf a
    exact ⟨b, by rw [pure_bind, hb]⟩

omit [MonadAttach m] in
/-- Where scalars have no effects, what a variable comes to is a function of its definition
and of what is supplied for it. -/
theorem VariableDefinition.exists_own (hclosed : schema.Closed) (hpure : schema.ScalarsPure) :
    ∃ own : VariableDefinition → Option Value → BindingResult, ∀ definition given,
      definition.bindOwn schema given = pure (own definition given) := by
  have hresult (definition : VariableDefinition) (given : Option Value) :
      ∃ result, definition.bindOwn schema given = pure result := by
    unfold bindOwn
    cases htype : definition.inputType? schema with
    | none => exact ⟨_, rfl⟩
    | some type =>
      exact bindAt_holds composes_pure hclosed hpure definition given
        (takesInput_of_inputType? htype)
  exact ⟨fun definition given => (hresult definition given).choose,
    fun definition given => (hresult definition given).choose_spec⟩

omit [MonadAttach m] in
theorem VariableBindings.ofDefinitions_of_own
    {own : VariableDefinition → Option Value → BindingResult}
    (hown : ∀ definition given, definition.bindOwn schema given = pure (own definition given))
    (supplied : Value) (declared : List VariableDefinition) :
    ofDefinitions schema supplied declared = pure (gathered (declared.map fun definition =>
      (definition, own definition (supplied.member? definition.name)))) := by
  rw [ofDefinitions_eq]
  simp only [hown, map_pure]
  rw [List.mapM_pure, map_pure]

end Pure

namespace Definitions

variable [LawfulMonad m] [LawfulMonadAttach m] [MonadLog m] {definitions : Definitions m}
  {schema : Schema m}

theorem scalarsPure_of_build (hpure : definitions.CoercersPure)
    (h : CanReturn definitions.build schema) : schema.ScalarsPure := by
  obtain ⟨written, hwritten, hsame⟩ := sameOutline_of_build h
  obtain ⟨hdeclared, rfl⟩ := (Build.checks_arena definitions).of_ok hwritten
  exact fun id coerce hbody =>
    hpure.scalarsPure hdeclared id coerce (hsame.symm.body?_scalar hbody)

/-- Variables are bound exactly, and each by itself.

The schema is one that is built, what is supplied is any value, and the variables of
the operation have different names and defaults that are no variables. The bindings
are exactly what becomes of the variables: in the order of the definitions, the values
that coercing a supplied value, or else a default, gives for the variables whose types
take input, and a record at the definition of every other variable, unless it may be
null and there is no value for it. Each record is at one definition and at no path.

The bindings are gathered from computations for the single variables, and each of these
takes its own definition and its own member of what is supplied. So members that are
not declared can be left out or put in, and members can come in another order. If
scalars have no effects, then what a variable comes to is one function of its definition
and its member, the same in all operations and for all that is supplied. If their
coercion functions return, so does the binding. -/
theorem bindings_of_build (hbuild : CanReturn definitions.build schema)
    {declared : List VariableDefinition} (hnames : (declared.map (·.name)).Nodup)
    (hplain : ∀ definition ∈ declared, ∀ literal ∈ definition.default,
      literal.isReference = false) (supplied : Value) :
    (definitions.CoercersReturn →
      Returns (VariableBindings.ofDefinitions schema supplied declared)) ∧
    (∀ bound, CanReturn (VariableBindings.ofDefinitions schema supplied declared) bound →
      ∃ attempts, VariableBindings.Exact schema supplied declared attempts bound ∧
        ∀ entry ∈ attempts, bound.values.lookup entry.1.name = attemptValue? entry.2) ∧
    VariableBindings.ofDefinitions schema supplied declared =
      VariableBindings.gathered <$> declared.mapM (fun definition =>
        (definition, ·) <$> definition.bindOwn schema (supplied.member? definition.name)) ∧
    (∀ members others, supplied = .object members → (members.map (·.1)).Nodup →
      (members.filter fun member => VariableBindings.isDeclared declared member.1).Perm
        (others.filter fun member => VariableBindings.isDeclared declared member.1) →
      VariableBindings.ofDefinitions schema (.object others) declared =
        VariableBindings.ofDefinitions schema supplied declared) ∧
    (definitions.CoercersPure →
      ∃ own : VariableDefinition → Option Value → BindingResult, ∀ given others,
        VariableBindings.ofDefinitions schema given others =
          pure (VariableBindings.gathered (others.map fun definition =>
            (definition, own definition (given.member? definition.name))))) := by
  have hclosed := closed_of_build hbuild
  refine ⟨fun hscalars => ?_, fun bound hbound => ?_, ?_, ?_, fun hpure => ?_⟩
  · exact VariableBindings.ofDefinitions_returns hclosed (coercersReturn_of_build hscalars hbuild)
      supplied declared
  · obtain ⟨attempts, hexact⟩ := VariableBindings.exists_exact hnames hplain hbound
    exact ⟨attempts, hexact, hexact.lookup_eq hnames⟩
  · exact VariableBindings.ofDefinitions_eq schema supplied declared
  · rintro members others rfl hkeys hperm
    exact VariableBindings.ofDefinitions_perm hkeys hperm
  · obtain ⟨own, hown⟩ :=
      VariableDefinition.exists_own hclosed (scalarsPure_of_build hpure hbuild)
    exact ⟨own, VariableBindings.ofDefinitions_of_own hown⟩

/-- One variable takes its default, one what is supplied, and one nothing. For the fourth a
text is supplied that is no number. -/
theorem bindings_of_build_greeting :
    let names := Literal.object ⟨1, 21⟩
      [⟨utf8 "names", .list ⟨1, 28⟩ [.string ⟨1, 29⟩ (utf8 "Ann")], ⟨1, 22⟩⟩]
    let declared : List VariableDefinition :=
      [⟨utf8 "g", .named (utf8 "Guests"), some names, ⟨1, 8⟩⟩,
        ⟨utf8 "n", .nonNull (.named (utf8 "Name")), none, ⟨1, 38⟩⟩,
        ⟨utf8 "q", .named (utf8 "Guests"), none, ⟨1, 47⟩⟩,
        ⟨utf8 "x", .nonNull (.named (utf8 "Int")), none, ⟨1, 58⟩⟩]
    let members := [(utf8 "x", Value.string (utf8 "abc")), (utf8 "more", .null),
      (utf8 "n", .string (utf8 "Bob"))]
    let others := [(utf8 "n", Value.string (utf8 "Bob")), (utf8 "x", .string (utf8 "abc"))]
    let bound : VariableBindings :=
      ⟨[(utf8 "g", .object [(utf8 "names", .list [.string (utf8 "Ann")])]),
        (utf8 "n", .string (utf8 "Bob"))],
        [⟨.inputInvalid .variableInput (utf8 "x") (utf8 "Int"), [⟨1, 58⟩], none⟩]⟩
    (CanReturn greeting.build Schema.greeting ∧ (declared.map (·.name)).Nodup ∧
      (∀ definition ∈ declared, ∀ literal ∈ definition.default, literal.isReference = false) ∧
      greeting.CoercersPure ∧ (members.map (·.1)).Nodup ∧
      (members.filter fun member => VariableBindings.isDeclared declared member.1).Perm
        (others.filter fun member => VariableBindings.isDeclared declared member.1) ∧
      CanReturn (VariableBindings.ofDefinitions Schema.greeting (.object members) declared) bound) ∧
    (∃ attempts, VariableBindings.Exact Schema.greeting (.object members) declared attempts bound) ∧
    VariableBindings.ofDefinitions Schema.greeting (.object others) declared =
      VariableBindings.ofDefinitions Schema.greeting (.object members) declared ∧
    ∃ own : VariableDefinition → Option Value → BindingResult,
      VariableBindings.ofDefinitions Schema.greeting (.object members) declared =
        pure (VariableBindings.gathered (declared.map fun definition =>
          (definition, own definition ((Value.object members).member? definition.name)))) := by
  intro names declared members others bound
  have hnames : (declared.map (·.name)).Nodup := by decide
  have hplain : ∀ definition ∈ declared, ∀ literal ∈ definition.default,
      literal.isReference = false := by
    simp [declared, names, Literal.isReference]
  have hpure : greeting.CoercersPure := by
    intro scalar hscalar coerce hcoerce value
    cases List.mem_singleton.1 hscalar
    cases hcoerce
    exact ⟨some value, rfl⟩
  have hkeys : (members.map (·.1)).Nodup := by decide
  have hperm : (members.filter fun member => VariableBindings.isDeclared declared member.1).Perm
      (others.filter fun member => VariableBindings.isDeclared declared member.1) :=
    .swap _ _ []
  have hrun : (VariableBindings.ofDefinitions Schema.greeting (.object members) declared).run.run =
      Except.ok bound := by decide +kernel
  have hbound : CanReturn
      (VariableBindings.ofDefinitions Schema.greeting (.object members) declared) bound := hrun
  obtain ⟨-, hexact, -, horder, howns⟩ :=
    bindings_of_build build_greeting hnames hplain (.object members)
  obtain ⟨attempts, hattempts, -⟩ := hexact bound hbound
  obtain ⟨own, hown⟩ := howns hpure
  exact ⟨⟨build_greeting, hnames, hplain, hpure, hkeys, hperm, hbound⟩, ⟨attempts, hattempts⟩,
    horder members others rfl hkeys hperm, own, hown _ declared⟩

end Definitions

end GraphQL
