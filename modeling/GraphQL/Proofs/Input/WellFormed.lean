/-
GraphQL.Proofs.Input.WellFormed — what is reported about input is well-formed.

  §1 Schemas    — schemas whose names, and whose own values, are well-formed.
  §2 Results    — results whose issues and keys are well-formed.
  §3 Coercion   — every coercion gives such results.
  §4 Input      — the names in values and in literals.
  §5 Variables  — the records about variables, and the values they take.
  §6 Arguments  — the records about the arguments of a field.

An issue quotes a path and a type. Paths are made of names, indices, and the keys
of members that are not declared. Such keys come from literals and from the values
of variables, and a variable's value is made of supplied keys and of what the schema
itself put there: defaults and the results of scalars.
-/
import GraphQL.Proofs.Document.WellFormed
import GraphQL.Proofs.Input.Conforms
import GraphQL.Proofs.Input.Invariants
import GraphQL.Proofs.Input.Report
import GraphQL.Proofs.Input.SuppliedNotices
import GraphQL.Proofs.Report.WellFormed

namespace GraphQL

open MonadAttach (CanReturn)
open LawfulMonadAttach (canReturn_bind_imp' canReturn_map_imp' eq_of_canReturn_pure)

/-! ## §1 Schemas -/

/-- The mark of a deprecation has a well-formed reason, if there is a mark. -/
def Deprecation.AllWellFormed (deprecation : Option Deprecation) : Prop :=
  ∀ mark ∈ deprecation, mark.WellFormed

/-- The name and the reason of a deprecation are well-formed. -/
structure Argument.NamesWellFormed (argument : Argument) : Prop where
  name : Utf8.WellFormed argument.name
  deprecation : Deprecation.AllWellFormed argument.deprecation

/-- The names of a field and of its arguments are well-formed, and so are the reasons of
deprecations. -/
structure FieldType.NamesWellFormed {m : Type → Type} (field : FieldType m) : Prop where
  name : Utf8.WellFormed field.name
  deprecation : Deprecation.AllWellFormed field.deprecation
  arguments : ∀ argument ∈ field.arguments, argument.NamesWellFormed

namespace Schema

variable {m : Type → Type}

/-- All names in the schema and all reasons of deprecations are well-formed. -/
structure NamesWellFormed (schema : Schema m) : Prop where
  types : ∀ id type, schema.type? id = some type → Utf8.WellFormed type.name
  fields : ∀ id fields, schema.body? id = some (.object fields) →
    ∀ field ∈ fields, field.NamesWellFormed
  inputFields : ∀ id fields, schema.body? id = some (.inputObject fields) →
    ∀ field ∈ fields, field.NamesWellFormed

/-- The values that the schema itself supplies have well-formed keys: the defaults of input
fields, and what scalars give for values without keys. -/
structure KeysWellFormed [Monad m] [MonadAttach m] (schema : Schema m) : Prop where
  defaults : ∀ id fields, schema.body? id = some (.inputObject fields) →
    ∀ field ∈ fields, ∀ value ∈ field.default, value.KeysWellFormed
  scalars : ∀ id coerce value given, schema.body? id = some (.scalar coerce) →
    value.isLeaf = true → CanReturn (coerce value) (some given) → given.KeysWellFormed

variable {schema : Schema m}

theorem NamesWellFormed.typeName (h : schema.NamesWellFormed) (id : TypeId) :
    Utf8.WellFormed (schema.typeName id) := by
  unfold Schema.typeName
  cases htype : schema.type? id with
  | none => exact .nil
  | some type => exact h.types id type htype

theorem NamesWellFormed.displayText (h : schema.NamesWellFormed) (type : TypeExpr TypeId) :
    Utf8.WellFormed (schema.displayText type) := by
  have hleaf : (type.map schema.typeName).leaf = schema.typeName type.leaf := by
    induction type with
    | named id => rfl
    | list element ih => exact ih
    | nonNull inner ih => exact ih
  exact TypeExpr.wellFormed_displayText (hleaf ▸ h.typeName type.leaf)

theorem NamesWellFormed.of_declares (h : schema.NamesWellFormed) {field : Argument}
    (hdeclared : schema.Declares field) : field.NamesWellFormed := by
  obtain ⟨id, declared, hbody, hfield⟩ := hdeclared
  exact h.inputFields id declared hbody field hfield

theorem NamesWellFormed.of_field? (h : schema.NamesWellFormed) {parent : TypeId} {name : Bytes}
    {field : FieldType m} (hfield : schema.field? parent name = some field) :
    field.NamesWellFormed := by
  obtain ⟨type, htype, hfound⟩ := Option.bind_eq_some_iff.1 hfield
  rw [NamedType.field?_eq] at hfound
  split at hfound
  · rename_i fields hbody
    refine h.fields parent fields ?_ field (List.mem_of_find?_eq_some hfound)
    rw [Schema.body?, htype, Option.map_some, hbody]
  · cases hfound

end Schema

/-! ## §2 Results -/

/-- What the issue quotes is well-formed. -/
structure Issue.WellFormed (issue : Issue) : Prop where
  path : Utf8.WellFormed issue.path
  typeName : Utf8.WellFormed issue.typeName
  deprecation : ∀ deprecation, issue.kind = .deprecated deprecation → deprecation.WellFormed

theorem Issue.wellFormed_of_ne {kind : IssueKind} {path typeName : Bytes}
    {location : Option Location} (hkind : ∀ deprecation, kind ≠ .deprecated deprecation)
    (hpath : Utf8.WellFormed path) (htype : Utf8.WellFormed typeName) :
    Issue.WellFormed ⟨kind, path, typeName, location⟩ :=
  ⟨hpath, htype, fun deprecation heq => absurd heq (hkind deprecation)⟩

/-- The issues are well-formed, and so are the keys in the value. -/
structure Coerced.WellFormed (coerced : Coerced) : Prop where
  issues : ∀ issue ∈ coerced.issues, issue.WellFormed
  value : ∀ value, coerced.outcome = .ok value → value.KeysWellFormed

/-- The same of the parts of a list or of an object, of which a value may be made. -/
structure Parts.WellFormed {α : Type} (make : α → Value) (parts : Parts α) : Prop where
  issues : ∀ issue ∈ parts.2, issue.WellFormed
  value : ∀ a, parts.1 = some a → (make a).KeysWellFormed

namespace Coerced.WellFormed

variable {coerced : Coerced}

theorem ok {value : Value} (h : value.KeysWellFormed) : (Coerced.ok value).WellFormed where
  issues := nofun
  value := by
    rintro _ ⟨⟩
    exact h

theorem absent : Coerced.absent.WellFormed where
  issues := nofun
  value := nofun

theorem fail {issue : Issue} (h : issue.WellFormed) : (Coerced.fail issue).WellFormed where
  issues := List.forall_mem_singleton.2 h
  value := nofun

/-- A list of one has the keys of its item. -/
theorem map_list (h : coerced.WellFormed) :
    (coerced.map fun value => .list [value]).WellFormed := by
  obtain ⟨outcome, issues⟩ := coerced
  cases outcome with
  | ok value =>
    refine ⟨h.issues, ?_⟩
    rintro _ ⟨⟩
    exact Value.keysWellFormed_list.2 (List.forall_mem_singleton.2 (h.value value rfl))
  | absent => exact h
  | failed => exact h

end Coerced.WellFormed

namespace Parts.WellFormed

variable {coerced : Coerced}

theorem item {parts : Parts (List Value)} (hfirst : coerced.WellFormed)
    (hparts : parts.WellFormed .list) : (parts.item coerced).WellFormed .list := by
  refine ⟨List.forall_mem_append.2 ⟨hfirst.issues, hparts.issues⟩, fun values hvalues => ?_⟩
  simp only [Parts.item] at hvalues
  split at hvalues
  · rename_i value later houtcome hlater
    cases hvalues
    exact Value.keysWellFormed_list.2 (List.forall_mem_cons.2
      ⟨hfirst.value value houtcome, Value.keysWellFormed_list.1 (hparts.value later hlater)⟩)
  · cases hvalues

theorem member {parts : Parts Members} {name : Bytes} (hname : Utf8.WellFormed name)
    (hfirst : coerced.WellFormed) (hparts : parts.WellFormed .object) :
    (parts.member name coerced).WellFormed .object := by
  refine ⟨List.forall_mem_append.2 ⟨hfirst.issues, hparts.issues⟩, fun members hmembers => ?_⟩
  simp only [Parts.member] at hmembers
  split at hmembers
  · rename_i value later houtcome hlater
    cases hmembers
    exact Value.keysWellFormed_object.2 (List.forall_mem_cons.2
      ⟨⟨hname, hfirst.value value houtcome⟩,
        Value.keysWellFormed_object.1 (hparts.value later hlater)⟩)
  · exact hparts.value members hmembers
  · cases hmembers

theorem whole {α : Type} {make : α → Value} {parts : Parts α} {own : List Issue}
    (hown : ∀ issue ∈ own, issue.WellFormed) (hparts : parts.WellFormed make) :
    (parts.whole make own).WellFormed := by
  refine ⟨List.forall_mem_append.2 ⟨hown, hparts.issues⟩, fun value hvalue => ?_⟩
  simp only [Parts.whole] at hvalue
  split at hvalue
  · rename_i a ha
    cases hvalue
    exact hparts.value a ha
  · cases hvalue

end Parts.WellFormed

/-! ## §3 Coercion -/

theorem wellFormed_partPath {parent child : Bytes} (hparent : Utf8.WellFormed parent)
    (hchild : Utf8.WellFormed child) : Utf8.WellFormed (partPath parent child) := by
  unfold partPath
  split
  · exact hchild
  · exact hparent.append ((Utf8.wellFormed_cons_iff (by decide)).2 hchild)

theorem Value.keysWellFormed_null : Value.null.KeysWellFormed := by
  unfold KeysWellFormed Spelled
  trivial

section Coercion

variable {m : Type → Type} [Monad m] [MonadAttach m] {schema : Schema m}

/-- Paths of parts are well-formed where the path of the whole is, and keys come from names,
from defaults and from scalars. -/
theorem Coercion.invariant_wellFormed (hnames : schema.NamesWellFormed)
    (hkeys : schema.KeysWellFormed) :
    Coercion.Invariant schema Utf8.WellFormed (fun value => value.isLeaf = true)
      (fun path coerced => Utf8.WellFormed path → coerced.WellFormed)
      (fun path _ parts => Utf8.WellFormed path → parts.WellFormed .list)
      (fun path _ parts => Utf8.WellFormed path → parts.WellFormed .object) where
  unbound _ _ := .absent
  nullValue _ _ := .ok Value.keysWellFormed_null
  misfit _ type _ hpath :=
    .fail (Issue.wellFormed_of_ne (by simp) hpath (hnames.displayText type))
  scalarValue _ hleaf hbody hgiven _ := .ok (hkeys.scalars _ _ _ _ hbody hleaf hgiven)
  wrapped h hpath := (h hpath).map_list
  noItems _ _ _ := ⟨nofun, by
    rintro _ ⟨⟩
    exact Value.keysWellFormed_list.2 nofun⟩
  item hfirst _ hparts hpath :=
    (hparts hpath).item (hfirst (wellFormed_partPath hpath (Utf8.wellFormed_decimal _)))
  ofItems hparts hpath := (hparts hpath).whole nofun
  missing {field} path location hdeclared hpath := by
    unfold missingField
    obtain ⟨id, declared, hbody, hfield⟩ := hdeclared
    cases hdefault : field.default with
    | some value => exact .ok (hkeys.defaults id declared hbody field hfield value hdefault)
    | none =>
      cases field.required with
      | true => exact .fail (Issue.wellFormed_of_ne (by simp) hpath (hnames.displayText field.type))
      | false => exact .absent
  noticed {field} {path} {coerced} location hdeclared h hpath := by
    refine ⟨List.forall_mem_append.2 ⟨?_, (h hpath).issues⟩, (h hpath).value⟩
    unfold deprecationIssues
    cases hdeprecation : field.deprecation with
    | none => nofun
    | some deprecation =>
      refine List.forall_mem_singleton.2 ⟨hpath, hnames.displayText field.type, ?_⟩
      rintro _ ⟨⟩
      exact (hnames.of_declares hdeclared).deprecation deprecation hdeprecation
  noMembers _ _ := ⟨nofun, by
    rintro _ ⟨⟩
    exact Value.keysWellFormed_object.2 nofun⟩
  member hdeclared hfirst hparts hpath :=
    have hname := (hnames.of_declares hdeclared).name
    (hparts hpath).member hname (hfirst (wellFormed_partPath hpath hname))
  ofMembers _ hnamed hparts hpath := (hparts hpath).whole fun issue hissue => by
    obtain ⟨given, hgiven, rfl⟩ := List.mem_map.1 hissue
    exact Issue.wellFormed_of_ne (by simp)
      (wellFormed_partPath hpath (hnamed given (List.mem_filter.1 hgiven).1)) .nil

end Coercion

/-! ## §4 Input -/

/-- All names in the input are well-formed, and its leaves have no names in them. -/
structure Input.WellFormed (input : Input) : Prop where
  names : ∀ name ∈ input.names, Utf8.WellFormed name
  leaves : ∀ value ∈ input.leaves, value.isLeaf = true

/-- The same of the items of a list. -/
structure Input.ItemsWellFormed (items : List Input) : Prop where
  names : ∀ name ∈ itemNames items, Utf8.WellFormed name
  leaves : ∀ value ∈ itemLeaves items, value.isLeaf = true

/-- The same of the fields of an object. -/
structure Input.FieldsWellFormed (fields : List (Bytes × Option Location × Input)) : Prop where
  names : ∀ name ∈ fieldNames fields, Utf8.WellFormed name
  leaves : ∀ value ∈ fieldLeaves fields, value.isLeaf = true

namespace Input

theorem ItemsWellFormed.cons {item : Input} {rest : List Input} (hitem : item.WellFormed)
    (hrest : ItemsWellFormed rest) : ItemsWellFormed (item :: rest) where
  names := List.forall_mem_append.2 ⟨hitem.names, hrest.names⟩
  leaves := List.forall_mem_append.2 ⟨hitem.leaves, hrest.leaves⟩

theorem FieldsWellFormed.cons {name : Bytes} {location : Option Location} {input : Input}
    {rest : List (Bytes × Option Location × Input)} (hname : Utf8.WellFormed name)
    (hinput : input.WellFormed) (hrest : FieldsWellFormed rest) :
    FieldsWellFormed ((name, location, input) :: rest) where
  names := List.forall_mem_cons.2 ⟨hname, List.forall_mem_append.2 ⟨hinput.names, hrest.names⟩⟩
  leaves := List.forall_mem_append.2 ⟨hinput.leaves, hrest.leaves⟩

theorem wellFormed_scalar {location : Option Location} {value : Value}
    (h : value.isLeaf = true) : (Input.scalar location value).WellFormed :=
  ⟨nofun, List.forall_mem_singleton.2 h⟩

mutual

/-- The names in a runtime value are its keys. -/
theorem wellFormed_ofValue (location : Option Location) : ∀ value : Value,
    value.KeysWellFormed → (ofValue location value).WellFormed
  | .null, _ => ⟨nofun, nofun⟩
  | .bool _, _ | .int _, _ | .uint _, _ | .float _, _ | .string _, _ => wellFormed_scalar rfl
  | .list items, h => by
    have hitems := wellFormed_ofValues location items (Value.keysWellFormed_list.1 h)
    exact ⟨hitems.names, hitems.leaves⟩
  | .object members, h => by
    have hmembers := wellFormed_ofMembers location members (Value.keysWellFormed_object.1 h)
    exact ⟨hmembers.names, hmembers.leaves⟩

theorem wellFormed_ofValues (location : Option Location) : ∀ items : List Value,
    (∀ item ∈ items, item.KeysWellFormed) → ItemsWellFormed (ofValues location items)
  | [], _ => ⟨nofun, nofun⟩
  | item :: rest, h => by
    obtain ⟨hitem, hrest⟩ := List.forall_mem_cons.1 h
    exact .cons (wellFormed_ofValue location item hitem) (wellFormed_ofValues location rest hrest)

theorem wellFormed_ofMembers (location : Option Location) : ∀ members : List (Bytes × Value),
    (∀ member ∈ members, Utf8.WellFormed member.1 ∧ member.2.KeysWellFormed) →
      FieldsWellFormed (ofMembers location members)
  | [], _ => ⟨nofun, nofun⟩
  | (name, value) :: rest, h => by
    obtain ⟨⟨hname, hvalue⟩, hrest⟩ := List.forall_mem_cons.1 h
    exact .cons hname (wellFormed_ofValue location value hvalue)
      (wellFormed_ofMembers location rest hrest)

end

variable {bindings : Members}

mutual

/-- The names in a literal are lexical, and its variables have well-formed keys. -/
theorem wellFormed_ofLiteral (hbindings : ∀ member ∈ bindings, member.2.KeysWellFormed) :
    ∀ literal : Literal, literal.WellFormed →
    (ofLiteral bindings literal).WellFormed
  | .null _, _ => ⟨nofun, nofun⟩
  | .int _ _, _ | .float _ _, _ | .string _ _, _ | .boolean _ _, _ | .enum _ _, _ =>
    wellFormed_scalar rfl
  | .reference location name, _ => by
    unfold ofLiteral
    cases hvalue : bindings.lookup name with
    | none => exact ⟨nofun, nofun⟩
    | some value => exact wellFormed_ofValue _ value (hbindings _ (mem_of_lookup hvalue))
  | .list _ items, h => by
    have hitems := wellFormed_ofLiterals hbindings items (Literal.forall_nodes_list.1 h).2
    exact ⟨hitems.names, hitems.leaves⟩
  | .object _ fields, h => by
    obtain ⟨hnames, hfields⟩ := Literal.forall_nodes_object.1 h
    have hentries := wellFormed_ofEntries hbindings fields
      (fun entry hentry => hnames.lexical entry.name (List.mem_map_of_mem hentry)) hfields
    exact ⟨hentries.names, hentries.leaves⟩

theorem wellFormed_ofLiterals (hbindings : ∀ member ∈ bindings, member.2.KeysWellFormed) :
    ∀ items : List Literal, (∀ item ∈ items, item.WellFormed) →
    ItemsWellFormed (ofLiterals bindings items)
  | [], _ => ⟨nofun, nofun⟩
  | item :: rest, h => by
    obtain ⟨hitem, hrest⟩ := List.forall_mem_cons.1 h
    exact .cons (wellFormed_ofLiteral hbindings item hitem)
      (wellFormed_ofLiterals hbindings rest hrest)

theorem wellFormed_ofEntries (hbindings : ∀ member ∈ bindings, member.2.KeysWellFormed) :
    ∀ entries : List (Entry Literal),
    (∀ entry ∈ entries, isName entry.name = true) →
    (∀ entry ∈ entries, entry.value.WellFormed) → FieldsWellFormed (ofEntries bindings entries)
  | [], _, _ => ⟨nofun, nofun⟩
  | ⟨name, value, _⟩ :: rest, hnames, hvalues => by
    obtain ⟨hname, hlaterNames⟩ := List.forall_mem_cons.1 hnames
    obtain ⟨hvalue, hlaterValues⟩ := List.forall_mem_cons.1 hvalues
    exact .cons (Utf8.wellFormed_isName hname) (wellFormed_ofLiteral hbindings value hvalue)
      (wellFormed_ofEntries hbindings rest hlaterNames hlaterValues)

end

end Input

variable {m : Type → Type} [Monad m] [LawfulMonad m] [MonadAttach m] [LawfulMonadAttach m]
  {schema : Schema m}

section Inputs

variable (hnames : schema.NamesWellFormed) (hkeys : schema.KeysWellFormed)
include hnames hkeys

theorem Value.wellFormed_of_coerce {value : Value} {location : Option Location}
    {type : TypeExpr TypeId} {path : Bytes} {coerced : Coerced} (hvalue : value.KeysWellFormed)
    (hpath : Utf8.WellFormed path)
    (h : CanReturn (value.coerce schema location type path) coerced) : coerced.WellFormed := by
  rw [Value.coerce_eq] at h
  have hinput := Input.wellFormed_ofValue location value hvalue
  exact Input.coerce_upholds (Coercion.invariant_wellFormed hnames hkeys) _ hinput.names
    hinput.leaves _ _ _ h hpath

theorem Literal.wellFormed_of_coerce {literal : Literal} {bindings : Members}
    {type : TypeExpr TypeId} {path : Bytes} {coerced : Coerced}
    (hbindings : ∀ member ∈ bindings, member.2.KeysWellFormed) (hliteral : literal.WellFormed)
    (hpath : Utf8.WellFormed path)
    (h : CanReturn (literal.coerce schema bindings type path) coerced) : coerced.WellFormed := by
  rw [Literal.coerce_eq] at h
  have hinput := Input.wellFormed_ofLiteral hbindings literal hliteral
  exact Input.coerce_upholds (Coercion.invariant_wellFormed hnames hkeys) _ hinput.names
    hinput.leaves _ _ _ h hpath

/-! ## §5 Variables -/

/-- A variable's value has well-formed keys, and the records about it are well-formed. -/
structure VariableDefinition.SettledWellFormed (value : Option Value)
    (errors : List ErrorRecord) : Prop where
  value : ∀ given ∈ value, given.KeysWellFormed
  errors : ∀ record ∈ errors, record.WellFormed

namespace VariableDefinition

variable {definition : VariableDefinition} {supplied : Value} {value : Option Value}
  {errors : List ErrorRecord}

omit hnames hkeys [Monad m] [LawfulMonad m] [MonadAttach m] [LawfulMonadAttach m] in
theorem wellFormed_record {message : Message} (h : message.WellFormed) :
    (definition.record message).WellFormed := ⟨h, nofun⟩

omit hnames hkeys [Monad m] [LawfulMonad m] [MonadAttach m] [LawfulMonadAttach m] in
theorem wellFormed_issueMessage {issue : Issue} (h : issue.WellFormed) :
    ∀ message ∈ issueMessage issue, message.WellFormed := by
  have hboth : ∀ text ∈ [issue.path, issue.typeName], Utf8.WellFormed text :=
    List.forall_mem_cons.2 ⟨h.path, List.forall_mem_singleton.2 h.typeName⟩
  intro message hmessage
  unfold issueMessage at hmessage
  split at hmessage
  · cases hmessage
    exact hboth
  · cases hmessage
    exact hboth
  · cases hmessage
    exact Message.wellFormed_of_one rfl h.path
  · cases hmessage

omit hnames hkeys [Monad m] [LawfulMonad m] [MonadAttach m] [LawfulMonadAttach m] in
theorem wellFormed_settle {coerced : Coerced} (h : coerced.WellFormed) :
    SettledWellFormed (definition.settle coerced).1 (definition.settle coerced).2 := by
  constructor
  · intro given hgiven
    simp only [settle] at hgiven
    split at hgiven
    · rename_i value houtcome
      cases hgiven
      exact h.value _ houtcome
    · cases hgiven
  · refine List.forall_mem_map.2 fun message hmessage => wellFormed_record ?_
    obtain ⟨issue, hissue, hmessage⟩ := List.mem_filterMap.1 hmessage
    exact wellFormed_issueMessage (h.issues issue hissue) message hmessage

/-- So it is whether the variable takes a supplied value, its default, or none. -/
theorem wellFormed_of_bind (hsupplied : supplied.KeysWellFormed)
    (hname : isName definition.name = true) (hdefinition : definition.WellFormed)
    (h : CanReturn (definition.bind schema supplied) (value, errors)) :
    SettledWellFormed value errors := by
  have hpath := Utf8.wellFormed_isName hname
  unfold bind at h
  split at h
  · cases eq_of_canReturn_pure h
    refine ⟨nofun, List.forall_mem_singleton.2 (wellFormed_record ?_)⟩
    exact List.forall_mem_cons.2
      ⟨hpath, List.forall_mem_singleton.2 (Utf8.wellFormed_isName hdefinition.typeName)⟩
  · rename_i type _
    unfold bindAt at h
    split at h
    · rename_i given hgiven
      obtain ⟨coerced, hcoerced, heq⟩ := canReturn_map_imp' h
      have hvalue : given.KeysWellFormed := by
        cases supplied with
        | object members =>
          exact (Value.keysWellFormed_object.1 hsupplied _ (mem_of_lookup hgiven)).2
        | _ => cases hgiven
      have hsettled : SettledWellFormed (definition.settle coerced).1
          (definition.settle coerced).2 :=
        wellFormed_settle (Value.wellFormed_of_coerce hnames hkeys hvalue hpath hcoerced)
      rwa [heq] at hsettled
    · rename_i literal _ hliteral
      obtain ⟨coerced, hcoerced, heq⟩ := canReturn_map_imp' h
      have hunbound : ∀ member ∈ ([] : Members), member.2.KeysWellFormed := nofun
      have hsettled : SettledWellFormed (definition.settle coerced).1
          (definition.settle coerced).2 :=
        wellFormed_settle (Literal.wellFormed_of_coerce hnames hkeys hunbound
          (hdefinition.default literal hliteral) hpath hcoerced)
      rwa [heq] at hsettled
    · split at h
      · cases eq_of_canReturn_pure h
        refine ⟨nofun, List.forall_mem_singleton.2 (wellFormed_record ?_)⟩
        exact List.forall_mem_cons.2
          ⟨hpath, List.forall_mem_singleton.2 (hnames.displayText type)⟩
      · cases eq_of_canReturn_pure h
        exact ⟨nofun, nofun⟩

end VariableDefinition

/-- The values of variables have well-formed keys, and the records are well-formed. -/
structure VariableBindings.WellFormed (bound : VariableBindings) : Prop where
  values : ∀ member ∈ bound.values, member.2.KeysWellFormed
  errors : ∀ record ∈ bound.errors, record.WellFormed

theorem VariableBindings.wellFormed_of_definitions {supplied : Value}
    (hsupplied : supplied.KeysWellFormed) {definitions : List VariableDefinition}
    {bound : VariableBindings}
    (hlexical : ∀ definition ∈ definitions, isName definition.name = true)
    (hdefinitions : ∀ definition ∈ definitions, definition.WellFormed)
    (h : CanReturn (ofDefinitions schema supplied definitions) bound) : bound.WellFormed := by
  obtain ⟨results, rfl, hresults, rfl⟩ := exists_gathered h
  have hsettled : ∀ result ∈ results, VariableDefinition.SettledWellFormed result.2.1 result.2.2 :=
    fun result hresult =>
      VariableDefinition.wellFormed_of_bind hnames hkeys hsupplied
        (hlexical _ (List.mem_map_of_mem hresult)) (hdefinitions _ (List.mem_map_of_mem hresult))
        (hresults result hresult)
  refine ⟨fun member hmember => ?_, fun record hrecord => ?_⟩
  · rcases mem_of_mem_assignAll hmember with hnone | hmember
    · cases hnone
    · obtain ⟨result, hresult, hmade⟩ := List.mem_filterMap.1 hmember
      obtain ⟨value, hvalue, rfl⟩ := Option.map_eq_some_iff.1 hmade
      exact (hsettled result hresult).value value hvalue
  · obtain ⟨result, hresult, hrecord⟩ := List.mem_flatMap.1 hrecord
    exact (hsettled result hresult).errors record hrecord

/-! ## §6 Arguments -/

/-- What is told of the argument and of its value is well-formed. -/
structure ArgumentAttempt.WellFormed (attempt : ArgumentAttempt) : Prop where
  argument : attempt.argument.NamesWellFormed
  coerced : attempt.coerced.WellFormed

theorem ArgumentAttempt.wellFormed_of_make {bindings : Members}
    (hbindings : ∀ member ∈ bindings, member.2.KeysWellFormed) {nodes : List (Entry Literal)}
    (hnodes : ∀ entry ∈ nodes, entry.value.WellFormed) {argument : Argument}
    (hargument : argument.NamesWellFormed) {attempt : ArgumentAttempt}
    (h : CanReturn (make schema bindings nodes argument) attempt) : attempt.WellFormed := by
  unfold make at h
  split at h
  · cases eq_of_canReturn_pure h
    exact ⟨hargument, .absent⟩
  · rename_i node hnode
    obtain ⟨coerced, hcoerced, h⟩ := canReturn_bind_imp' h
    cases eq_of_canReturn_pure h
    exact ⟨hargument, Literal.wellFormed_of_coerce hnames hkeys hbindings
      (hnodes node (List.mem_of_find?_eq_some hnode)) hargument.name hcoerced⟩

omit hkeys [Monad m] [LawfulMonad m] [MonadAttach m] [LawfulMonadAttach m] in
/-- Whatever is found about arguments, the record of it is well-formed. -/
theorem FieldSite.Finds.wellFormed {site : FieldSite} (hfield : Utf8.WellFormed site.field)
    (hpath : site.path.WellFormed) {attempts : List ArgumentAttempt}
    (hattempts : ∀ attempt ∈ attempts, attempt.WellFormed) {nodes : List (Entry Literal)}
    (hnodes : ∀ entry ∈ nodes, Utf8.WellFormed entry.name) {record : ErrorRecord}
    (h : FieldSite.Finds schema site attempts nodes record) : record.WellFormed := by
  have hissue : ∀ attempt ∈ attempts, ∀ issue ∈ attempt.coerced.issues, issue.WellFormed :=
    fun attempt hattempt => (hattempts attempt hattempt).coerced.issues
  have htyped {path type : Bytes} (hinput : Utf8.WellFormed path) (htype : Utf8.WellFormed type) :
      ∀ text ∈ [path, type], Utf8.WellFormed text :=
    List.forall_mem_cons.2 ⟨hinput, List.forall_mem_singleton.2 htype⟩
  have hmarked {deprecation : Deprecation} (hmark : deprecation.WellFormed) :
      ∀ text ∈ deprecation.reason.toList, Utf8.WellFormed text := by
    simpa [Deprecation.WellFormed] using hmark
  cases h with
  | missing =>
    refine ErrorRecord.wellFormed_located hpath (List.forall_mem_cons.2 ⟨hfield, ?_⟩)
    refine List.forall_mem_map.2 fun attempt hattempt => ?_
    exact (hattempts attempt (List.mem_filter.1 hattempt).1).argument.name
  | malformed =>
    refine ErrorRecord.wellFormed_located hpath (List.forall_mem_cons.2 ⟨hfield, ?_⟩)
    intro path hfailing
    obtain ⟨attempt, hattempt, hfailing⟩ := List.mem_flatMap.1 hfailing
    obtain ⟨issue, hfailure, rfl⟩ := List.mem_map.1 hfailing
    exact (hissue attempt hattempt issue (List.mem_filter.1 hfailure).1).path
  | @missingArgument attempt hattempt =>
    exact ErrorRecord.wellFormed_located hpath
      (htyped (hattempts attempt hattempt).argument.name (hnames.displayText _))
  | @deprecatedArgument attempt node deprecation hattempt hnode hdeprecation =>
    have hargument := (hattempts attempt hattempt).argument
    exact ErrorRecord.wellFormed_located hpath (List.forall_mem_cons.2 ⟨hargument.name,
      List.forall_mem_cons.2 ⟨hnames.displayText _,
        hmarked (hargument.deprecation deprecation hdeprecation)⟩⟩)
  | undeclared hentry =>
    exact ErrorRecord.wellFormed_located hpath (Message.wellFormed_of_one rfl (hnodes _ hentry))
  | @failing attempt issue hattempt hfailure =>
    have htold := hissue attempt hattempt issue hfailure
    refine ErrorRecord.wellFormed_located hpath ?_
    unfold failureMessage
    split <;> exact htyped htold.path htold.typeName
  | @unknown attempt issue hattempt hfailure =>
    exact ErrorRecord.wellFormed_located hpath
      (Message.wellFormed_of_one rfl (hissue attempt hattempt issue hfailure).path)
  | @deprecated attempt issue deprecation hattempt hfailure hkind =>
    have htold := hissue attempt hattempt issue hfailure
    exact ErrorRecord.wellFormed_located hpath (List.forall_mem_cons.2 ⟨htold.path,
      List.forall_mem_cons.2 ⟨htold.typeName, hmarked (htold.deprecation deprecation hkind)⟩⟩)

/-- The check of a field's arguments reports well-formed records only. -/
theorem ArgumentVerdict.wellFormed_errors {bindings : Members}
    (hbindings : ∀ member ∈ bindings, member.2.KeysWellFormed) {field : FieldType m}
    (hfield : field.NamesWellFormed) {node : Field} (hnode : node.Proper) {path : ResponsePath}
    (hpath : path.WellFormed) {verdict : ArgumentVerdict}
    (h : CanReturn (checkArguments schema bindings field node path) verdict) :
    ∀ record ∈ verdict.errors, record.WellFormed := by
  obtain ⟨attempts, hattempts, h⟩ := canReturn_bind_imp' h
  cases eq_of_canReturn_pure h
  have hmade := forall₂_of_canReturn_mapM hattempts
  have hwellFormed : ∀ attempt ∈ attempts, attempt.WellFormed := by
    intro attempt hattempt
    obtain ⟨argument, hargument, hmake⟩ := exists_of_mem_right hmade hattempt
    exact ArgumentAttempt.wellFormed_of_make hnames hkeys hbindings hnode.arguments
      (hfield.arguments argument hargument) hmake
  have hnodes : ∀ entry ∈ node.arguments, Utf8.WellFormed entry.name := fun entry hentry =>
    Utf8.wellFormed_isName (hnode.argumentNames.lexical _ (List.mem_map_of_mem hentry))
  exact fun record hrecord => (FieldSite.finds_of_mem_report _ _ _ _ _ hrecord).wellFormed hnames
    hfield.name hpath hwellFormed hnodes

end Inputs

end GraphQL
