/-
GraphQL.Proofs.Schema.Declared — which definitions become types, and which types.

  §1 Declarations  — the types that definitions declare, and the schema they spell.
  §2 Rules         — what is asked of declarations.
  §3 Checks        — steps that succeed exactly if a rule is kept.
  §4 Names         — names differ, and every scalar has a coercion function.
  §5 References    — written types name declared types of the right sort.
  §6 Fields        — arguments, fields, and the fields of one type.
  §7 Types         — all types, one after another.
  §8 Positions     — what stands at a position is made of a declaration.

A check is told by the rule that it makes sure of and by the result that it has
if the rule is kept. Rules do not mention positions or the order of checks, and
results are read off the declarations.
-/
import GraphQL.Proofs.Schema.Tables
import GraphQL.Proofs.Value.Members
import GraphQL.Schema.Build
import Mathlib.Data.List.Nodup

namespace GraphQL

/-! ## §1 Declarations -/

/-- A type that is declared, built-in or defined. -/
inductive Declaration (m : Type → Type) where
  | scalar (definition : ScalarDefinition m)
  | object (definition : ObjectDefinition m)
  | input (definition : InputDefinition)

variable {m : Type → Type}

namespace Declaration

/-- The name that is declared. -/
def name : Declaration m → Bytes
  | .scalar definition => definition.name
  | .object definition => definition.name
  | .input definition => definition.name

/-- The sort of the type that is declared. -/
def sort : Declaration m → TypeSort
  | .scalar _ => .scalar
  | .object _ => .object
  | .input _ => .inputObject

end Declaration

/-- The built-in scalars as definitions. -/
def Scalar.definitions [Monad m] : List (ScalarDefinition m) :=
  builtIn.map fun scalar => ⟨scalar.1, some fun value => return scalar.2 value⟩

namespace Definitions

/-- All declarations: of built-in scalars, scalars, objects and input objects. -/
def declarations [Monad m] (definitions : Definitions m) : List (Declaration m) :=
  (Scalar.definitions ++ definitions.scalars).map .scalar ++
    definitions.objects.map .object ++ definitions.inputs.map .input

/-- The position of the first declaration of a name. -/
def typeId? [Monad m] (definitions : Definitions m) (name : Bytes) : Option TypeId :=
  definitions.declarations.findIdx? (·.name == name)

/-- What a written type refers to. A text that is no type and a name that is not
declared, which no schema is built with, stand for the first type. -/
def typeOf [Monad m] (definitions : Definitions m) (text : Bytes) : TypeExpr TypeId :=
  match WrittenType.ofText text with
  | .ok written => written.map fun _ => (definitions.typeId? written.leaf).getD 0
  | .error _ => .named 0

end Definitions

variable [Monad m]

/-- The argument that is declared, with its default as it is written. -/
def ArgumentDefinition.made (definitions : Definitions m) (definition : ArgumentDefinition) :
    Argument :=
  ⟨definition.name, definitions.typeOf definition.type, definition.default,
    definition.deprecation, definition.description⟩

/-- The field that is declared. Without a resolver it reads the parent's member of its name. -/
def FieldDefinition.made (definitions : Definitions m) (definition : FieldDefinition m) :
    FieldType m :=
  ⟨definition.name, definitions.typeOf definition.type,
    definition.arguments.map (·.made definitions),
    definition.resolver.getD (memberResolver definition.name), definition.deprecation,
    definition.description⟩

/-- The type that is declared. A scalar without coercion function, which no schema is
built with, takes nothing. -/
def Declaration.made (definitions : Definitions m) : Declaration m → NamedType m
  | .scalar definition =>
    .of definition.name [] (.scalar (definition.coercer.getD fun _ => return none))
  | .object definition =>
    .of definition.name definition.description
      (.object (definition.fields.map (·.made definitions)))
  | .input definition =>
    .of definition.name definition.description
      (.inputObject (definition.fields.map (·.made definitions)))

/-- The type that is declared, before it has fields. -/
def Declaration.bare : Declaration m → NamedType m
  | .scalar definition =>
    .of definition.name [] (.scalar (definition.coercer.getD fun _ => return none))
  | .object definition => Build.bareObject definition
  | .input definition => Build.bareInput definition

/-- The schema that the definitions spell, with defaults as they are written and without
roots. -/
def Definitions.written (definitions : Definitions m) : Schema m :=
  .ofTypes (definitions.declarations.map (·.made definitions))

/-- The object type with these fields, which may not be all that are defined. -/
def ObjectDefinition.having (definition : ObjectDefinition m) (fields : List (FieldType m)) :
    NamedType m :=
  .of definition.name definition.description (.object fields)

/-- The input object type with these fields. -/
def InputDefinition.having (definition : InputDefinition) (fields : List Argument) :
    NamedType m :=
  .of definition.name definition.description (.inputObject fields)

section Declaration

variable {definitions : Definitions m}

@[simp]
theorem Declaration.name_made (declaration : Declaration m) :
    (declaration.made definitions).name = declaration.name := by
  cases declaration <;> rfl

@[simp]
theorem Declaration.sort_made (declaration : Declaration m) :
    (declaration.made definitions).body.sort = declaration.sort := by
  cases declaration <;> rfl

@[simp]
theorem Declaration.name_bare (declaration : Declaration m) :
    declaration.bare.name = declaration.name := by
  cases declaration <;> rfl

@[simp]
theorem Declaration.sort_bare (declaration : Declaration m) :
    declaration.bare.body.sort = declaration.sort := by
  cases declaration <;> rfl

end Declaration

namespace Definitions

variable (definitions : Definitions m)

/-- The types of scalars, which stand before all others and have no fields to get. -/
def scalarTypes : List (NamedType m) :=
  Build.builtInTypes ++ definitions.scalars.map fun scalar => (Declaration.scalar scalar).bare

/-- The object type that is declared. -/
def madeObject (object : ObjectDefinition m) : NamedType m :=
  (Declaration.object object).made definitions

/-- The input object type that is declared. -/
def madeInput (input : InputDefinition) : NamedType m :=
  (Declaration.input input).made definitions

theorem bare_declarations : definitions.declarations.map Declaration.bare =
    definitions.scalarTypes ++ definitions.objects.map Build.bareObject ++
      definitions.inputs.map Build.bareInput := by
  simp [scalarTypes, declarations, Scalar.definitions, Build.builtInTypes, Declaration.bare,
    Function.comp_def]

theorem made_declarations : definitions.declarations.map (·.made definitions) =
    definitions.scalarTypes ++ definitions.objects.map definitions.madeObject ++
      definitions.inputs.map definitions.madeInput := by
  show _ = definitions.scalarTypes ++
    definitions.objects.map (fun object => (Declaration.object object).made definitions) ++
    definitions.inputs.map fun input => (Declaration.input input).made definitions
  simp [scalarTypes, declarations, Scalar.definitions, Build.builtInTypes, Declaration.bare,
    Declaration.made, Function.comp_def]

end Definitions

/-! ## §2 Rules -/

namespace Definitions

variable (definitions : Definitions m)

/-- The text is a type, and its name is declared and none of those excluded. -/
def Names (excluded : List Bytes) (text : Bytes) : Prop :=
  ∃ written, WrittenType.ofText text = .ok written ∧
    written.leaf ∈ definitions.declarations.map Declaration.name ∧ written.leaf ∉ excluded

/-- Arguments, or fields of an input object, have different names, and types that are
declared and no object types. -/
structure ArgumentsFit (arguments : List ArgumentDefinition) : Prop where
  distinct : (arguments.map (·.name)).Nodup
  types : ∀ argument ∈ arguments,
    definitions.Names (definitions.objects.map (·.name)) argument.type

/-- A field has a type that is declared and no input object type, and its arguments fit. -/
structure FieldFits (field : FieldDefinition m) : Prop where
  type : definitions.Names (definitions.inputs.map (·.name)) field.type
  arguments : definitions.ArgumentsFit field.arguments

/-- An object has fields, of different names. -/
structure ObjectFits (object : ObjectDefinition m) : Prop where
  nonempty : object.fields ≠ []
  distinct : (object.fields.map (·.name)).Nodup
  fields : ∀ field ∈ object.fields, definitions.FieldFits field

/-- An input object has fields, of different names. -/
structure InputFits (input : InputDefinition) : Prop where
  nonempty : input.fields ≠ []
  fields : definitions.ArgumentsFit input.fields

/-- All that is asked of definitions but for their defaults and roots. -/
structure WellDeclared : Prop where
  coercers : ∀ scalar ∈ definitions.scalars, scalar.coercer.isSome = true
  distinct : (definitions.declarations.map Declaration.name).Nodup
  objects : ∀ object ∈ definitions.objects, definitions.ObjectFits object
  inputs : ∀ input ∈ definitions.inputs, definitions.InputFits input

end Definitions

/-! ## §3 Checks -/

namespace Build

/-- The check succeeds exactly if the rule is kept, and then with this result. -/
structure Checks {α : Type} (check : Except SchemaProblem α) (rule : Prop) (result : α) :
    Prop where
  accepts : rule → check = .ok result
  refuses : ¬ rule → ∃ problem, check = .error problem

namespace Checks

variable {α β : Type} {check : Except SchemaProblem α} {next : α → Except SchemaProblem β}
  {rule other : Prop} {a : α} {b : β}

omit [Monad m]

theorem ok (h : rule) : Checks (.ok a) rule a := ⟨fun _ => rfl, fun hnot => absurd h hnot⟩

theorem iff (h : Checks check rule a) (hrule : rule ↔ other) : Checks check other a :=
  ⟨fun hother => h.accepts (hrule.2 hother), fun hother => h.refuses (mt hrule.1 hother)⟩

/-- The result matters only if the rule is kept. -/
theorem congr (h : Checks check rule a) {a' : α} (ha : rule → a = a') : Checks check rule a' :=
  ⟨fun hrule => ha hrule ▸ h.accepts hrule, h.refuses⟩

/-- One check after another one, whose rule is kept by then. -/
theorem bind (h : Checks check rule a) (hnext : rule → Checks (next a) other b) :
    Checks (check >>= next) (rule ∧ other) b := by
  by_cases hrule : rule
  · rw [h.accepts hrule]
    exact ((hnext hrule).iff (by simp [hrule]) : Checks (next a) (rule ∧ other) b)
  · obtain ⟨problem, heq⟩ := h.refuses hrule
    rw [heq]
    exact ⟨fun hboth => absurd hboth.1 hrule, fun _ => ⟨problem, rfl⟩⟩

/-- A check that succeeded made sure of the rule. -/
theorem of_ok (h : Checks check rule a) {given : α} (hok : check = .ok given) :
    rule ∧ given = a := by
  by_cases hrule : rule
  · rw [h.accepts hrule] at hok
    exact ⟨hrule, (Except.ok.inj hok).symm⟩
  · obtain ⟨problem, heq⟩ := h.refuses hrule
    rw [heq] at hok
    cases hok

/-- What is made of the result does not matter for the rule. -/
theorem map (f : α → β) (h : Checks check rule a) :
    Checks (check >>= fun given => return f given) rule (f a) :=
  (h.bind fun _ => (ok trivial : Checks (.ok (f a)) True (f a))).iff (by rw [and_true])

/-- A condition is tried first, which must not hold. -/
theorem guarded {condition : Prop} [Decidable condition] {problem : SchemaProblem}
    (h : Checks check rule a) :
    Checks (if condition then .error problem else check) (¬ condition ∧ rule) a := by
  by_cases hcondition : condition
  · rw [if_pos hcondition]
    exact ⟨fun hboth => absurd hcondition hboth.1, fun _ => ⟨problem, rfl⟩⟩
  · rw [if_neg hcondition]
    exact h.iff (by simp [hcondition])

/-- Parts that are built each once have different names, also from those seen before. -/
theorem eachOnce {name : α → Bytes} {part : Bytes → DefinitionPart}
    {build : α → Except SchemaProblem β} {rules : α → Prop} {result : α → β}
    (h : ∀ a, Checks (build a) (rules a) (result a)) (seen : List Bytes) (as : List α) :
    Checks (Build.eachOnce name part build seen as)
      ((∀ a ∈ as, name a ∉ seen) ∧ (as.map name).Nodup ∧ ∀ a ∈ as, rules a)
      (as.map result) := by
  induction as generalizing seen with
  | nil => exact ok ⟨nofun, List.nodup_nil, nofun⟩
  | cons a as ih =>
    rw [Build.eachOnce]
    refine ((h a).bind fun _ => (ih (name a :: seen)).map (result a :: ·)).guarded.iff ?_
    rw [List.contains_iff_mem, List.map_cons, List.nodup_cons, List.forall_mem_cons,
      List.forall_mem_cons]
    constructor
    · rintro ⟨hseen, hrule, hfresh, hnodup, hrules⟩
      refine ⟨⟨hseen, fun b hb hmem => hfresh b hb (List.mem_cons_of_mem _ hmem)⟩,
        ⟨fun hmem => ?_, hnodup⟩, hrule, hrules⟩
      obtain ⟨b, hb, heq⟩ := List.mem_map.1 hmem
      exact hfresh b hb (heq ▸ List.mem_cons_self)
    · rintro ⟨⟨hseen, hothers⟩, ⟨hfresh, hnodup⟩, hrule, hrules⟩
      refine ⟨hseen, hrule, fun b hb hmem => ?_, hnodup, hrules⟩
      rcases List.mem_cons.1 hmem with heq | hmem
      · exact hfresh (heq ▸ List.mem_map_of_mem hb)
      · exact hothers b hb hmem

end Checks

/-! ## §4 Names -/

omit [Monad m] in
/-- A type is declared if its name is new. -/
theorem checks_declare (types : List (NamedType m)) (type : NamedType m) :
    Checks (declare (.ofTypes types) type) (type.name ∉ types.map (·.name))
      (.ofTypes (types ++ [type])) := by
  unfold declare
  rw [Schema.add_ofTypes]
  refine (Checks.ok trivial : Checks (.ok _) True _).guarded.iff ?_
  rw [Schema.contains_byName, and_true]
  rfl

theorem checks_declareScalar (types : List (NamedType m)) (scalar : ScalarDefinition m) :
    Checks (declareScalar (.ofTypes types) scalar)
      (scalar.coercer.isSome = true ∧ scalar.name ∉ types.map (·.name))
      (.ofTypes (types ++ [(Declaration.scalar scalar).bare])) := by
  unfold declareScalar
  cases hcoercer : scalar.coercer with
  | none => exact ⟨fun hboth => absurd hboth.1 Bool.false_ne_true, fun _ => ⟨_, rfl⟩⟩
  | some coerce =>
    have hbare : (Declaration.scalar scalar).bare = .of scalar.name [] (.scalar coerce) := by
      rw [Declaration.bare, hcoercer, Option.getD_some]
    rw [hbare]
    exact (checks_declare types _).iff (by simp [NamedType.of])

omit [Monad m] in
theorem nodup_concat_iff {names : List Bytes} {name : Bytes} (h : names.Nodup) :
    (names ++ [name]).Nodup ↔ name ∉ names := by
  rw [List.nodup_append]
  constructor
  · rintro ⟨_, _, hne⟩ hmem
    exact hne name hmem name List.mem_cons_self rfl
  · intro hfresh
    refine ⟨h, by simp, fun other hother last hlast => ?_⟩
    rw [List.mem_singleton.1 hlast]
    rintro rfl
    exact hfresh hother

omit [Monad m] in
theorem nodup_names_left {front back : List (NamedType m)}
    (h : ((front ++ back).map (·.name)).Nodup) : (front.map (·.name)).Nodup := by
  rw [List.map_append] at h
  exact h.of_append_left

omit [Monad m] in
/-- Types are declared one after another if each may be declared for itself, and if the
names of all differ, those declared before among them. -/
theorem checks_declareAll {α : Type} {step : Schema m → α → Except SchemaProblem (Schema m)}
    {bare : α → NamedType m} {rules : α → Prop}
    (hstep : ∀ types a, Checks (step (.ofTypes types) a)
      (rules a ∧ (bare a).name ∉ types.map (·.name)) (.ofTypes (types ++ [bare a])))
    (added : List α) (types : List (NamedType m)) (hnames : (types.map (·.name)).Nodup) :
    Checks (added.foldlM step (.ofTypes types))
      ((∀ a ∈ added, rules a) ∧ ((types ++ added.map bare).map (·.name)).Nodup)
      (.ofTypes (types ++ added.map bare)) := by
  induction added generalizing types with
  | nil =>
    rw [List.foldlM_nil, List.map_nil, List.append_nil]
    exact .ok ⟨nofun, hnames⟩
  | cons a added ih =>
    have hone : ((types ++ [bare a]).map (·.name)).Nodup ↔ (bare a).name ∉ types.map (·.name) := by
      rw [List.map_append, List.map_singleton]
      exact nodup_concat_iff hnames
    rw [List.foldlM_cons, List.map_cons, List.append_cons types]
    refine ((hstep types a).bind fun hfirst => ih _ (hone.2 hfirst.2)).iff ?_
    rw [List.forall_mem_cons]
    constructor
    · rintro ⟨⟨hfirst, _⟩, hrest, hnodup⟩
      exact ⟨⟨hfirst, hrest⟩, hnodup⟩
    · rintro ⟨⟨hfirst, hrest⟩, hnodup⟩
      exact ⟨⟨hfirst, hone.1 (nodup_names_left hnodup)⟩, hrest, hnodup⟩

omit [Monad m] in
/-- Types that may all be declared for themselves are declared if their names differ. -/
theorem checks_declareTypes {α : Type} (bare : α → NamedType m) (added : List α)
    (types : List (NamedType m)) (hnames : (types.map (·.name)).Nodup) :
    Checks (added.foldlM (fun schema a => declare schema (bare a)) (.ofTypes types))
      ((types ++ added.map bare).map (·.name)).Nodup (.ofTypes (types ++ added.map bare)) := by
  have hstep : ∀ types a, Checks (declare (.ofTypes types) (bare a))
      (True ∧ (bare a).name ∉ types.map (·.name)) (.ofTypes (types ++ [bare a])) :=
    fun types a => (checks_declare types (bare a)).iff (by rw [true_and])
  refine (checks_declareAll hstep added types hnames).iff ?_
  simp

theorem names_builtInTypes :
    (builtInTypes (m := m)).map (·.name) = Scalar.builtIn.map Prod.fst := by
  simp [builtInTypes, NamedType.of]

theorem nodup_builtInTypes : ((builtInTypes (m := m)).map (·.name)).Nodup := by
  rw [names_builtInTypes]
  decide

/-- The names of the built-in scalars differ, so these are all declared. -/
theorem checks_builtInTypes :
    Checks (builtInTypes.foldlM declare (.empty : Schema m)) True (.ofTypes builtInTypes) := by
  have hdeclared := checks_declareTypes (fun type => type) (builtInTypes (m := m)) [] List.nodup_nil
  rw [List.map_id', List.nil_append] at hdeclared
  exact hdeclared.iff (iff_true_intro nodup_builtInTypes)

end Build

namespace Definitions

/-- A declaration is that of a scalar, of an object or of an input object. -/
theorem mem_declarations {definitions : Definitions m} {declaration : Declaration m} :
    declaration ∈ definitions.declarations ↔
      (∃ scalar ∈ Scalar.definitions ++ definitions.scalars, .scalar scalar = declaration) ∨
      (∃ object ∈ definitions.objects, .object object = declaration) ∨
      ∃ input ∈ definitions.inputs, .input input = declaration := by
  simp only [declarations, List.mem_append, List.mem_map, or_assoc]

/-- A name that is declared has a position. -/
theorem exists_typeId? {definitions : Definitions m} {name : Bytes}
    (h : name ∈ definitions.declarations.map Declaration.name) :
    ∃ id, definitions.typeId? name = some id := by
  obtain ⟨declaration, hmem, rfl⟩ := List.mem_map.1 h
  rw [← Option.isSome_iff_exists, typeId?, List.findIdx?_isSome, List.any_eq_true]
  exact ⟨declaration, hmem, beq_self_eq_true _⟩

/-- The position of a name is that of a declaration of the name. -/
theorem declaration_of_typeId? {definitions : Definitions m} {name : Bytes} {id : TypeId}
    (h : definitions.typeId? name = some id) :
    ∃ declaration, definitions.declarations[id]? = some declaration ∧ declaration.name = name := by
  obtain ⟨hrange, hfound, _⟩ := List.findIdx?_eq_some_iff_getElem.1 h
  exact ⟨_, List.getElem?_eq_getElem hrange, beq_iff_eq.1 hfound⟩

end Definitions

namespace Build

variable (definitions : Definitions m)

/-- All types are laid out exactly if each scalar has a coercion function and names differ. -/
theorem checks_layOut : Checks (layOut definitions)
    ((∀ scalar ∈ definitions.scalars, scalar.coercer.isSome = true) ∧
      (definitions.declarations.map Declaration.name).Nodup)
    (.ofTypes (definitions.declarations.map Declaration.bare)) := by
  have hnames : definitions.declarations.map Declaration.name =
      (definitions.declarations.map Declaration.bare).map (·.name) := by
    simp [Function.comp_def]
  rw [hnames, definitions.bare_declarations]
  unfold layOut
  refine (checks_builtInTypes.bind fun _ =>
    (checks_declareAll checks_declareScalar _ _ nodup_builtInTypes).bind fun hscalars =>
    (checks_declareTypes bareObject _ _ hscalars.2).bind fun hobjects =>
      checks_declareTypes bareInput _ _ hobjects).iff ?_
  constructor
  · rintro ⟨_, ⟨hcoercers, _⟩, _, hnodup⟩
    exact ⟨hcoercers, hnodup⟩
  · rintro ⟨hcoercers, hnodup⟩
    have hobjects := nodup_names_left hnodup
    exact ⟨trivial, ⟨hcoercers, nodup_names_left hobjects⟩, hobjects, hnodup⟩

end Build

/-! ## §5 References -/

@[simp]
theorem TypeExpr.leaf_map {α β : Type} (f : α → β) (type : TypeExpr α) :
    (type.map f).leaf = f type.leaf := by
  induction type with
  | named leaf => rfl
  | list element ih => exact ih
  | nonNull inner ih => exact ih

/-- The schema has types of the declared names and sorts, which may not have all their
fields yet. -/
structure Definitions.LaidOut (definitions : Definitions m) (schema : Schema m) : Prop where
  names : schema.types.map (·.name) = definitions.declarations.map Declaration.name
  sorts : schema.types.map (·.body.sort) = definitions.declarations.map Declaration.sort

/-- So the schema is when all types are declared. -/
theorem Definitions.laidOut_bare (definitions : Definitions m) :
    definitions.LaidOut (.ofTypes (definitions.declarations.map Declaration.bare)) where
  names := by simp [Schema.ofTypes, Function.comp_def]
  sorts := by simp [Schema.ofTypes, Function.comp_def]

namespace Definitions.LaidOut

variable {definitions : Definitions m} {schema : Schema m}

/-- Positions are those of declarations. -/
theorem typeId?_eq (h : definitions.LaidOut schema) (name : Bytes) :
    schema.typeId? name = definitions.typeId? name := by
  have hnames := congrArg (List.findIdx? (· == name)) h.names
  rw [List.findIdx?_map, List.findIdx?_map] at hnames
  rw [Schema.typeId?_eq]
  exact hnames

/-- At the position of a declaration there is a type of its sort. -/
theorem any_sort (h : definitions.LaidOut schema) (sort : TypeSort) {id : TypeId}
    {declaration : Declaration m} (hdeclared : definitions.declarations[id]? = some declaration) :
    ((schema.body? id).any fun body => body.sort = sort) = true ↔ declaration.sort = sort := by
  have hsort := congrArg (·[id]?) h.sorts
  simp only [List.getElem?_map, hdeclared, Option.map_some] at hsort
  obtain ⟨type, htype, hsame⟩ := Option.map_eq_some_iff.1 hsort
  rw [Schema.body?, Schema.type?, htype, Option.map_some, Option.any_some, hsame,
    decide_eq_true_eq]

/-- Other types of the same names and sorts make no difference. -/
theorem replaceAll {α : Type} {before after : List (NamedType m)} (types others : α → NamedType m)
    (hname : ∀ a, (others a).name = (types a).name)
    (hsort : ∀ a, (others a).body.sort = (types a).body.sort) (as : List α)
    (h : definitions.LaidOut (.ofTypes (before ++ (as.map types ++ after)))) :
    definitions.LaidOut (.ofTypes (before ++ (as.map others ++ after))) := by
  refine ⟨?_, ?_⟩
  · rw [← h.names]
    simp [Schema.ofTypes, hname, Function.comp_def]
  · rw [← h.sorts]
    simp [Schema.ofTypes, hsort, Function.comp_def]

theorem replace {before after : List (NamedType m)} {type other : NamedType m}
    (h : definitions.LaidOut (.ofTypes (before ++ type :: after)))
    (hname : other.name = type.name) (hsort : other.body.sort = type.body.sort) :
    definitions.LaidOut (.ofTypes (before ++ other :: after)) :=
  replaceAll (fun _ => type) (fun _ => other) (fun _ => hname) (fun _ => hsort) [()] h

end Definitions.LaidOut

namespace Build

section References

variable {definitions : Definitions m}
  (hdistinct : (definitions.declarations.map Declaration.name).Nodup)

include hdistinct

/-- Names differ, so a declared name that an object has is that of an object. -/
theorem sort_eq_object_iff {declaration : Declaration m}
    (hmem : declaration ∈ definitions.declarations) :
    declaration.sort = .object ↔ declaration.name ∈ definitions.objects.map (·.name) := by
  constructor
  · intro hsort
    rcases Definitions.mem_declarations.1 hmem with ⟨_, _, rfl⟩ | ⟨object, hobject, rfl⟩ |
      ⟨_, _, rfl⟩
    · cases hsort
    · exact List.mem_map_of_mem hobject
    · cases hsort
  · intro hname
    obtain ⟨object, hobject, hsame⟩ := List.mem_map.1 hname
    have hother := Definitions.mem_declarations.2 (.inr (.inl ⟨object, hobject, rfl⟩))
    rw [← List.inj_on_of_nodup_map hdistinct hother hmem hsame]
    rfl

theorem sort_eq_inputObject_iff {declaration : Declaration m}
    (hmem : declaration ∈ definitions.declarations) :
    declaration.sort = .inputObject ↔ declaration.name ∈ definitions.inputs.map (·.name) := by
  constructor
  · intro hsort
    rcases Definitions.mem_declarations.1 hmem with ⟨_, _, rfl⟩ | ⟨_, _, rfl⟩ |
      ⟨input, hinput, rfl⟩
    · cases hsort
    · cases hsort
    · exact List.mem_map_of_mem hinput
  · intro hname
    obtain ⟨input, hinput, hsame⟩ := List.mem_map.1 hname
    have hother := Definitions.mem_declarations.2 (.inr (.inr ⟨input, hinput, rfl⟩))
    rw [← List.inj_on_of_nodup_map hdistinct hother hmem hsame]
    rfl

variable {schema : Schema m} (h : definitions.LaidOut schema)

include h

theorem isObjectType_iff {id : TypeId} {declaration : Declaration m}
    (hdeclared : definitions.declarations[id]? = some declaration) :
    schema.isObjectType id = true ↔ declaration.name ∈ definitions.objects.map (·.name) := by
  rw [Schema.isObjectType_eq, h.any_sort .object hdeclared,
    sort_eq_object_iff hdistinct (List.mem_of_getElem? hdeclared)]

theorem isInputObjectType_iff {id : TypeId} {declaration : Declaration m}
    (hdeclared : definitions.declarations[id]? = some declaration) :
    schema.isInputObjectType id = true ↔ declaration.name ∈ definitions.inputs.map (·.name) := by
  rw [Schema.isInputObjectType_eq, h.any_sort .inputObject hdeclared,
    sort_eq_inputObject_iff hdistinct (List.mem_of_getElem? hdeclared)]

omit hdistinct in
/-- A reference to a type is checked by its name and its sort, and then used. -/
theorem checks_reference {α : Type} {part : DefinitionPart} {text : Bytes}
    {refused : TypeId → Bool} {excluded : List Bytes} {problem : TypeExpr TypeId → SchemaProblem}
    {next : TypeExpr TypeId → Except SchemaProblem α} {rule : Prop} {a : α}
    (hrefused : ∀ id declaration, definitions.declarations[id]? = some declaration →
      (refused id = true ↔ declaration.name ∈ excluded))
    (hnext : Checks (next (definitions.typeOf text)) rule a) :
    Checks (resolve schema part text >>= fun type =>
        if refused type.leaf = true then .error (problem type) else next type)
      (definitions.Names excluded text ∧ rule) a := by
  unfold resolve
  cases hread : WrittenType.ofText text with
  | error message =>
    refine ⟨?_, fun _ => ⟨_, rfl⟩⟩
    rintro ⟨⟨written, hother, _⟩, _⟩
    rw [hread] at hother
    cases hother
  | ok written =>
    dsimp only
    rw [Schema.understand?, h.typeId?_eq]
    by_cases hname : written.leaf ∈ definitions.declarations.map Declaration.name
    · obtain ⟨id, hid⟩ := Definitions.exists_typeId? hname
      obtain ⟨declaration, hdeclared, hsame⟩ := Definitions.declaration_of_typeId? hid
      have htype : definitions.typeOf text = written.map fun _ => id := by
        simp [Definitions.typeOf, hread, hid]
      have hleaf : (definitions.typeOf text).leaf = id := by rw [htype, TypeExpr.leaf_map]
      have hnames : definitions.Names excluded text ↔
          ¬ refused (definitions.typeOf text).leaf = true := by
        rw [hleaf, hrefused id declaration hdeclared, hsame]
        constructor
        · rintro ⟨other, hother, _, hexcluded⟩
          rw [hread] at hother
          cases hother
          exact hexcluded
        · exact fun hexcluded => ⟨written, hread, hname, hexcluded⟩
      rw [hid, hnames, Option.map_some, ← htype]
      exact hnext.guarded
    · have hnone : definitions.typeId? written.leaf = none := by
        rw [Definitions.typeId?, List.findIdx?_eq_none_iff]
        intro declaration hmem
        exact beq_eq_false_iff_ne.2 fun heq => hname (List.mem_map.2 ⟨declaration, hmem, heq⟩)
      rw [hnone]
      refine ⟨?_, fun _ => ⟨_, rfl⟩⟩
      rintro ⟨⟨other, hother, hdeclared, _⟩, _⟩
      rw [hread] at hother
      cases hother
      exact absurd hdeclared hname

/-! ## §6 Fields -/

theorem checks_argument (part : DefinitionPart) (definition : ArgumentDefinition) :
    Checks (argument schema part definition)
      (definitions.Names (definitions.objects.map (·.name)) definition.type)
      (definition.made definitions) := by
  let next : TypeExpr TypeId → Except SchemaProblem Argument := fun type =>
    return ⟨definition.name, type, definition.default, definition.deprecation,
      definition.description⟩
  have hnext : Checks (next (definitions.typeOf definition.type)) True
      (definition.made definitions) := .ok trivial
  exact (checks_reference h (fun _ _ => isObjectType_iff hdistinct h) hnext).iff (by rw [and_true])

theorem checks_arguments (part : Bytes → DefinitionPart) (declared : List ArgumentDefinition) :
    Checks (arguments schema part declared) (definitions.ArgumentsFit declared)
      (declared.map (·.made definitions)) := by
  refine (Checks.eachOnce (fun definition => checks_argument hdistinct h (part definition.name)
    definition) [] declared).iff ?_
  constructor
  · rintro ⟨_, hnodup, htypes⟩
    exact ⟨hnodup, htypes⟩
  · rintro ⟨hnodup, htypes⟩
    exact ⟨fun _ _ => List.not_mem_nil, hnodup, htypes⟩

theorem checks_fieldType (object : Bytes) (definition : FieldDefinition m) :
    Checks (fieldType schema object definition) (definitions.FieldFits definition)
      (definition.made definitions) := by
  let next : TypeExpr TypeId → Except SchemaProblem (FieldType m) := fun type => do
    let arguments ← arguments schema (.argument object definition.name) definition.arguments
    return ⟨definition.name, type, arguments,
      definition.resolver.getD (memberResolver definition.name), definition.deprecation,
      definition.description⟩
  have hnext : Checks (next (definitions.typeOf definition.type))
      (definitions.ArgumentsFit definition.arguments) (definition.made definitions) :=
    (checks_arguments hdistinct h _ definition.arguments).map _
  refine (checks_reference h (fun _ _ => isInputObjectType_iff hdistinct h) hnext).iff ?_
  exact ⟨fun h => ⟨h.1, h.2⟩, fun h => ⟨h.type, h.arguments⟩⟩

end References

section Filling

variable {definitions : Definitions m} {before after : List (NamedType m)}

omit [Monad m] in
/-- Names differ, so a type is found where it stands. -/
theorem typeId?_ofTypes {type : NamedType m}
    (hdistinct : ((before ++ type :: after).map (·.name)).Nodup) :
    (Schema.ofTypes (before ++ type :: after)).typeId? type.name = some before.length := by
  rw [List.map_append, List.map_cons, List.nodup_append] at hdistinct
  have hearlier : before.findIdx? (·.name == type.name) = none := by
    rw [List.findIdx?_eq_none_iff]
    intro other hother
    exact beq_eq_false_iff_ne.2 (hdistinct.2.2 _ (List.mem_map_of_mem hother) _ List.mem_cons_self)
  rw [Schema.typeId?_eq, Schema.ofTypes, List.findIdx?_append, hearlier, List.findIdx?_cons,
    if_pos (beq_self_eq_true _), Option.none_or, Option.map_some, Nat.zero_add]

omit [Monad m] in
theorem type?_ofTypes (type : NamedType m) :
    (Schema.ofTypes (before ++ type :: after)).type? before.length = some type := by
  simp [Schema.type?, Schema.ofTypes]

omit [Monad m] in
/-- Parts are added to a type one by one if each may be built for itself, and if their
names differ from each other and from those of the parts it has. `having` is the type with
the parts that it has. -/
theorem checks_addEach {α β : Type} {name : α → Bytes} {nameOf : β → Bytes}
    {part : Bytes → DefinitionPart} {build : Schema m → α → Except SchemaProblem β}
    {add : Schema m → β → Schema m} {rules : α → Prop} (having : List β → NamedType m)
    (made : α → β) (hparts : ∀ parts, (having parts).body.fieldNames = parts.map nameOf)
    (hadd : ∀ parts built, add (.ofTypes (before ++ having parts :: after)) built =
      .ofTypes (before ++ having (parts ++ [built]) :: after))
    (hbuild : ∀ parts a,
      Checks (build (.ofTypes (before ++ having parts :: after)) a) (rules a) (made a))
    (hname : ∀ a, nameOf (made a) = name a) (added : List α) (parts : List β) :
    Checks (addEach before.length name part build add
        (.ofTypes (before ++ having parts :: after)) added)
      ((∀ a ∈ added, name a ∉ parts.map nameOf) ∧ (added.map name).Nodup ∧ ∀ a ∈ added, rules a)
      (.ofTypes (before ++ having (parts ++ added.map made) :: after)) := by
  induction added generalizing parts with
  | nil =>
    rw [List.map_nil, List.map_nil, List.append_nil]
    exact .ok ⟨nofun, List.nodup_nil, nofun⟩
  | cons a added ih =>
    have hkeys : (parts ++ [made a]).map nameOf = parts.map nameOf ++ [name a] := by
      simp [hname]
    rw [addEach, List.map_cons, List.map_cons, List.append_cons parts]
    have hrest := ih (parts ++ [made a])
    rw [← hadd] at hrest
    refine ((hbuild parts a).bind fun _ => hrest).guarded.iff ?_
    rw [Schema.hasPart_iff (type?_ofTypes _), hparts, hkeys, List.nodup_cons,
      List.forall_mem_cons, List.forall_mem_cons]
    constructor
    · rintro ⟨hfirst, hrule, hfresh, hnodup, hrules⟩
      refine ⟨⟨hfirst, fun b hb hmem => hfresh b hb (List.mem_append_left _ hmem)⟩,
        ⟨fun hmem => ?_, hnodup⟩, hrule, hrules⟩
      obtain ⟨b, hb, heq⟩ := List.mem_map.1 hmem
      exact hfresh b hb (heq ▸ List.mem_append_right _ List.mem_cons_self)
    · rintro ⟨⟨hfirst, hothers⟩, ⟨hfresh, hnodup⟩, hrule, hrules⟩
      refine ⟨hfirst, hrule, fun b hb hmem => ?_, hnodup, hrules⟩
      rcases List.mem_append.1 hmem with hmem | hmem
      · exact hothers b hb hmem
      · exact hfresh (List.mem_singleton.1 hmem ▸ List.mem_map_of_mem hb)

omit [Monad m] in
/-- A type that has no parts yet gets all of them if there are some and their names differ. -/
theorem checks_addAll {α β : Type} {name : α → Bytes} {nameOf : β → Bytes}
    {part : Bytes → DefinitionPart} {build : Schema m → α → Except SchemaProblem β}
    {add : Schema m → β → Schema m} {rules : α → Prop} {added : List α} {problem : SchemaProblem}
    (having : List β → NamedType m) (made : α → β)
    (hparts : ∀ parts, (having parts).body.fieldNames = parts.map nameOf)
    (hadd : ∀ parts built, add (.ofTypes (before ++ having parts :: after)) built =
      .ofTypes (before ++ having (parts ++ [built]) :: after))
    (hbuild : ∀ parts a,
      Checks (build (.ofTypes (before ++ having parts :: after)) a) (rules a) (made a))
    (hname : ∀ a, nameOf (made a) = name a) :
    Checks (if added.isEmpty then .error problem else addEach before.length name part build add
        (.ofTypes (before ++ having [] :: after)) added)
      (added ≠ [] ∧ (added.map name).Nodup ∧ ∀ a ∈ added, rules a)
      (.ofTypes (before ++ having (added.map made) :: after)) := by
  refine (checks_addEach having made hparts hadd hbuild hname added []).guarded.iff ?_
  simp

variable (hdistinct : (definitions.declarations.map Declaration.name).Nodup)

include hdistinct

/-- An object type gets its fields if they fit. -/
theorem checks_fillObject (definition : ObjectDefinition m)
    (h : definitions.LaidOut (.ofTypes (before ++ bareObject definition :: after))) :
    Checks (fillObject (.ofTypes (before ++ bareObject definition :: after)) definition)
      (definitions.ObjectFits definition)
      (.ofTypes (before ++ definitions.madeObject definition :: after)) := by
  have hid : (Schema.ofTypes (before ++ bareObject definition :: after)).typeId? definition.name =
      some before.length := typeId?_ofTypes (h.names ▸ hdistinct)
  have hadd : ∀ fields field,
      (Schema.ofTypes (before ++ definition.having fields :: after)).addField before.length field =
        .ofTypes (before ++ definition.having (fields ++ [field]) :: after) := by
    intro fields field
    rw [Schema.addField, Schema.alter_ofTypes, ObjectDefinition.having, NamedType.addField_of,
      ObjectDefinition.having]
  have hlaid : ∀ fields, definitions.LaidOut
      (.ofTypes (before ++ definition.having fields :: after)) := fun _ => h.replace rfl rfl
  have hbuild : ∀ fields field, Checks
      (fieldType (.ofTypes (before ++ definition.having fields :: after)) definition.name field)
      (definitions.FieldFits field) (field.made definitions) :=
    fun fields field => checks_fieldType hdistinct (hlaid fields) definition.name field
  unfold fillObject
  rw [hid]
  refine (checks_addAll definition.having (FieldDefinition.made definitions) (fun _ => rfl) hadd
    hbuild fun _ => rfl).iff ?_
  constructor
  · rintro ⟨hnonempty, hnodup, hfields⟩
    exact ⟨hnonempty, hnodup, hfields⟩
  · rintro ⟨hnonempty, hnodup, hfields⟩
    exact ⟨hnonempty, hnodup, hfields⟩

/-- So does an input object type. -/
theorem checks_fillInput (definition : InputDefinition)
    (h : definitions.LaidOut (.ofTypes (before ++ bareInput definition :: after))) :
    Checks (fillInput (.ofTypes (before ++ bareInput definition :: after)) definition)
      (definitions.InputFits definition)
      (.ofTypes (before ++ definitions.madeInput definition :: after)) := by
  have hid : (Schema.ofTypes (before ++ bareInput definition :: after)).typeId? definition.name =
      some before.length := typeId?_ofTypes (h.names ▸ hdistinct)
  have hadd : ∀ declared field, (Schema.ofTypes
      (before ++ definition.having declared :: after)).addInputField before.length field =
        .ofTypes (before ++ definition.having (declared ++ [field]) :: after) := by
    intro declared field
    rw [Schema.addInputField, Schema.alter_ofTypes, InputDefinition.having,
      NamedType.addInputField_of, InputDefinition.having]
  have hlaid : ∀ declared, definitions.LaidOut
      (.ofTypes (before ++ definition.having declared :: after)) := fun _ => h.replace rfl rfl
  have hbuild : ∀ declared field, Checks
      (argument (.ofTypes (before ++ definition.having declared :: after))
        (.inputField definition.name field.name) field)
      (definitions.Names (definitions.objects.map (·.name)) field.type) (field.made definitions) :=
    fun declared field => checks_argument hdistinct (hlaid declared) _ field
  unfold fillInput
  rw [hid]
  refine (checks_addAll definition.having (ArgumentDefinition.made definitions) (fun _ => rfl) hadd
    hbuild fun _ => rfl).iff ?_
  constructor
  · rintro ⟨hnonempty, hnodup, htypes⟩
    exact ⟨hnonempty, hnodup, htypes⟩
  · rintro ⟨hnonempty, hnodup, htypes⟩
    exact ⟨hnonempty, hnodup, htypes⟩

end Filling

/-! ## §7 Types -/

/-- Types get their fields one after another, where each stands. -/
theorem checks_fillAll {definitions : Definitions m} {α : Type}
    {fill : Schema m → α → Except SchemaProblem (Schema m)} (bare made : α → NamedType m)
    {rules : α → Prop} (hname : ∀ a, (made a).name = (bare a).name)
    (hsort : ∀ a, (made a).body.sort = (bare a).body.sort)
    (hfill : ∀ before after a, definitions.LaidOut (.ofTypes (before ++ bare a :: after)) →
      Checks (fill (.ofTypes (before ++ bare a :: after)) a) (rules a)
        (.ofTypes (before ++ made a :: after)))
    (pending : List α) (before after : List (NamedType m))
    (h : definitions.LaidOut (.ofTypes (before ++ (pending.map bare ++ after)))) :
    Checks (pending.foldlM fill (.ofTypes (before ++ (pending.map bare ++ after))))
      (∀ a ∈ pending, rules a) (.ofTypes (before ++ (pending.map made ++ after))) := by
  induction pending generalizing before with
  | nil => exact .ok nofun
  | cons a pending ih =>
    rw [List.map_cons, List.cons_append] at h
    have hnext := h.replace (hname a) (hsort a)
    rw [List.append_cons] at hnext
    rw [List.foldlM_cons, List.map_cons, List.map_cons, List.cons_append, List.cons_append]
    refine ((hfill before _ a h).bind fun _ => ?_).iff List.forall_mem_cons.symm
    rw [List.append_cons before (made a) (pending.map bare ++ after),
      List.append_cons before (made a) (pending.map made ++ after)]
    exact ih _ hnext

section Arena

variable (definitions : Definitions m)

/-- The types when objects have their fields, and input objects do not have theirs yet. -/
def objectsFilled : List (NamedType m) :=
  definitions.scalarTypes ++ definitions.objects.map definitions.madeObject ++
    definitions.inputs.map bareInput

variable (hdistinct : (definitions.declarations.map Declaration.name).Nodup)

include hdistinct

/-- All object types get their fields, each where it stands. -/
theorem checks_fillObjects : Checks (definitions.objects.foldlM fillObject
      (.ofTypes (definitions.declarations.map Declaration.bare)))
    (∀ object ∈ definitions.objects, definitions.ObjectFits object)
    (.ofTypes (objectsFilled definitions)) := by
  have hlaid := definitions.laidOut_bare
  rw [definitions.bare_declarations, List.append_assoc] at hlaid ⊢
  rw [objectsFilled, List.append_assoc]
  exact checks_fillAll bareObject definitions.madeObject (fun _ => rfl) (fun _ => rfl)
    (fun _ _ object => checks_fillObject hdistinct object) definitions.objects _ _ hlaid

/-- Then all input object types do. -/
theorem checks_fillInputs : Checks (definitions.inputs.foldlM fillInput
      (.ofTypes (objectsFilled definitions)))
    (∀ input ∈ definitions.inputs, definitions.InputFits input) definitions.written := by
  have hlaid := definitions.laidOut_bare
  rw [definitions.bare_declarations, List.append_assoc] at hlaid
  have hfilled := hlaid.replaceAll bareObject definitions.madeObject (fun _ => rfl) (fun _ => rfl)
    definitions.objects
  -- Nothing comes after input objects.
  have hinputs := checks_fillAll bareInput definitions.madeInput (fun _ => rfl) (fun _ => rfl)
    (fun _ _ input => checks_fillInput hdistinct input) definitions.inputs
    (definitions.scalarTypes ++ definitions.objects.map definitions.madeObject) []
  rw [List.append_nil, List.append_nil, List.append_assoc] at hinputs
  rw [objectsFilled, Definitions.written, definitions.made_declarations, List.append_assoc]
  exact hinputs hfilled

omit hdistinct in
/-- Definitions become a schema exactly if they are declared well, and then the one that
they spell. -/
theorem checks_arena : Checks (arena definitions) definitions.WellDeclared definitions.written := by
  unfold arena
  refine ((checks_layOut definitions).bind fun hnames =>
    (checks_fillObjects definitions hnames.2).bind fun _ =>
      checks_fillInputs definitions hnames.2).iff ?_
  constructor
  · rintro ⟨⟨hcoercers, hdistinct⟩, hobjects, hinputs⟩
    exact ⟨hcoercers, hdistinct, hobjects, hinputs⟩
  · rintro ⟨hcoercers, hdistinct, hobjects, hinputs⟩
    exact ⟨⟨hcoercers, hdistinct⟩, hobjects, hinputs⟩

end Arena

end Build

/-! ## §8 Positions -/

namespace Definitions

variable {definitions : Definitions m}

theorem type?_written (id : TypeId) :
    definitions.written.type? id = definitions.declarations[id]?.map (·.made definitions) :=
  List.getElem?_map

theorem declaration_of_body? {id : TypeId} {body : TypeBody m}
    (h : definitions.written.body? id = some body) :
    ∃ declaration ∈ definitions.declarations, (declaration.made definitions).body = body := by
  obtain ⟨type, htype, hbody⟩ := Option.map_eq_some_iff.1 h
  rw [type?_written] at htype
  obtain ⟨declaration, hfound, rfl⟩ := Option.map_eq_some_iff.1 htype
  exact ⟨declaration, List.mem_of_getElem? hfound, hbody⟩

/-- What holds of all coercion functions, of built-in scalars and of those that are
defined, holds at every scalar type. -/
theorem WellDeclared.scalars (h : definitions.WellDeclared) {P : Coercer m → Prop}
    (hbuiltIn : ∀ scalar ∈ Scalar.builtIn, P fun value => return scalar.2 value)
    (hdefined : ∀ scalar ∈ definitions.scalars, ∀ coerce, scalar.coercer = some coerce → P coerce)
    {id : TypeId} {coerce : Coercer m}
    (hbody : definitions.written.body? id = some (.scalar coerce)) : P coerce := by
  obtain ⟨declaration, hmem, hmade⟩ := declaration_of_body? hbody
  rcases mem_declarations.1 hmem with ⟨scalar, hscalar, rfl⟩ | ⟨_, _, rfl⟩ | ⟨_, _, rfl⟩
  · cases hmade
    rcases List.mem_append.1 hscalar with hscalar | hscalar
    · obtain ⟨given, hgiven, rfl⟩ := List.mem_map.1 hscalar
      exact hbuiltIn given hgiven
    · obtain ⟨coerce, hcoerce⟩ := Option.isSome_iff_exists.1 (h.coercers scalar hscalar)
      rw [hcoerce]
      exact hdefined scalar hscalar coerce hcoerce
  · cases hmade
  · cases hmade

end Definitions

end GraphQL
