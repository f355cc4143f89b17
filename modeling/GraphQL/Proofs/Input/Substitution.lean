/-
GraphQL.Proofs.Input.Substitution — variables as abbreviations of their values.

  §1 Literal forms  — values as literals.
  §2 Substitution   — a literal with its variables replaced.
  §3 Agreement      — the literal and its substitution are coerced alike.
  §4 Denotation     — a literal without variables and the value it denotes.
  §5 Integers       — unsigned integers, which no literal spells.
  §6 Laws           — what replacing variables and denoting values changes.

A reference to a variable is coerced as the literal form of the variable's
value. One without value is null in a list and leaves its field out of an
object. A literal without references is coerced as the value it denotes is,
although literals and runtime values have a coercion each.
-/
import GraphQL.Proofs.Document.WellFormed
import GraphQL.Proofs.Input.Agreement
import GraphQL.Proofs.Input.Conforms
import GraphQL.Proofs.Schema.BuiltIn
import GraphQL.Proofs.Value.Equality
import GraphQL.Proofs.Value.Members

namespace GraphQL

/-! ## §1 Literal forms -/

namespace Value

mutual

/-- The literal form of a value, every part at one place. Integer literals are
signed, so that a value with unsigned integers has none. -/
def literal? (location : Location) : Value → Option Literal
  | .null => some (.null location)
  | .bool b => some (.boolean location b)
  | .int n => some (.int location n)
  | .uint _ => none
  | .float x => some (.float location x)
  | .string text => some (.string location text)
  | .list items => (itemLiterals? location items).map (.list location)
  | .object members => (memberLiterals? location members).map (.object location)

/-- The literal forms of the items of a list. -/
def itemLiterals? (location : Location) : List Value → Option (List Literal)
  | [] => some []
  | item :: rest => do
    let literal ← literal? location item
    let literals ← itemLiterals? location rest
    return literal :: literals

/-- The literal forms of the members of an object. -/
def memberLiterals? (location : Location) : List (Bytes × Value) → Option (List (Entry Literal))
  | [] => some []
  | (key, value) :: rest => do
    let literal ← literal? location value
    let literals ← memberLiterals? location rest
    return ⟨key, literal, location⟩ :: literals

end

end Value

namespace Literal

theorem constant_list {location : Location} {items : List Literal} :
    (Literal.list location items).Constant ↔ ∀ item ∈ items, item.Constant :=
  forall_nodes_list.trans (and_iff_right rfl)

theorem constant_object {location : Location} {fields : List (Entry Literal)} :
    (Literal.object location fields).Constant ↔ ∀ field ∈ fields, field.value.Constant :=
  forall_nodes_object.trans (and_iff_right rfl)

end Literal

namespace Value

variable (bindings : Members) {location : Location}

mutual

/-- A literal form reads as the value itself. -/
theorem ofLiteral_literal? : ∀ {value : Value} {literal : Literal},
    value.literal? location = some literal →
    Input.ofLiteral bindings literal = Input.ofValue (some location) value
  | .list items, _, h => by
    rw [literal?, Option.map_eq_some_iff] at h
    obtain ⟨literals, hliterals, rfl⟩ := h
    rw [Input.ofLiteral, Input.ofValue, ofLiterals_itemLiterals? hliterals]
  | .object members, _, h => by
    rw [literal?, Option.map_eq_some_iff] at h
    obtain ⟨literals, hliterals, rfl⟩ := h
    rw [Input.ofLiteral, Input.ofValue, ofEntries_memberLiterals? hliterals]
  | .uint _, _, h => by simp [literal?] at h
  | .null, _, h | .bool _, _, h | .int _, _, h | .float _, _, h | .string _, _, h => by
    cases h
    rfl

/-- So do the items of a list. -/
theorem ofLiterals_itemLiterals? : ∀ {items : List Value} {literals : List Literal},
    itemLiterals? location items = some literals →
    Input.ofLiterals bindings literals = Input.ofValues (some location) items
  | [], _, h => by
    cases h
    rfl
  | item :: rest, _, h => by
    simp only [itemLiterals?, Option.bind_eq_bind, Option.bind_eq_some_iff] at h
    obtain ⟨literal, hliteral, literals, hliterals, heq⟩ := h
    cases heq
    rw [Input.ofLiterals, Input.ofValues, ofLiteral_literal? hliteral,
      ofLiterals_itemLiterals? hliterals]

/-- So do the members of an object. -/
theorem ofEntries_memberLiterals? : ∀ {members : List (Bytes × Value)}
    {literals : List (Entry Literal)}, memberLiterals? location members = some literals →
    Input.ofEntries bindings literals = Input.ofMembers (some location) members
  | [], _, h => by
    cases h
    rfl
  | (key, value) :: rest, _, h => by
    simp only [memberLiterals?, Option.bind_eq_bind, Option.bind_eq_some_iff] at h
    obtain ⟨literal, hliteral, literals, hliterals, heq⟩ := h
    cases heq
    rw [Input.ofEntries, Input.ofMembers, ofLiteral_literal? hliteral,
      ofEntries_memberLiterals? hliterals]

end

mutual

/-- A literal form refers to no variable. -/
theorem constant_literal? : ∀ {value : Value} {literal : Literal},
    value.literal? location = some literal → literal.Constant
  | .list items, _, h => by
    rw [literal?, Option.map_eq_some_iff] at h
    obtain ⟨literals, hliterals, rfl⟩ := h
    exact Literal.constant_list.2 (constant_itemLiterals? hliterals)
  | .object members, _, h => by
    rw [literal?, Option.map_eq_some_iff] at h
    obtain ⟨literals, hliterals, rfl⟩ := h
    exact Literal.constant_object.2 (constant_memberLiterals? hliterals)
  | .uint _, _, h => by simp [literal?] at h
  | .null, _, h | .bool _, _, h | .int _, _, h | .float _, _, h | .string _, _, h => by
    cases h
    intro node hnode
    cases List.mem_singleton.1 hnode
    rfl

/-- Nor do those of the items of a list. -/
theorem constant_itemLiterals? : ∀ {items : List Value} {literals : List Literal},
    itemLiterals? location items = some literals → ∀ literal ∈ literals, literal.Constant
  | [], _, h => by
    cases h
    simp
  | item :: rest, _, h => by
    simp only [itemLiterals?, Option.bind_eq_bind, Option.bind_eq_some_iff] at h
    obtain ⟨literal, hliteral, literals, hliterals, heq⟩ := h
    cases heq
    exact List.forall_mem_cons.2
      ⟨constant_literal? hliteral, constant_itemLiterals? hliterals⟩

/-- Nor do those of the members of an object. -/
theorem constant_memberLiterals? : ∀ {members : List (Bytes × Value)}
    {literals : List (Entry Literal)}, memberLiterals? location members = some literals →
    ∀ literal ∈ literals, literal.value.Constant
  | [], _, h => by
    cases h
    simp
  | (key, value) :: rest, _, h => by
    simp only [memberLiterals?, Option.bind_eq_bind, Option.bind_eq_some_iff] at h
    obtain ⟨literal, hliteral, literals, hliterals, heq⟩ := h
    cases heq
    exact List.forall_mem_cons.2
      ⟨constant_literal? hliteral, constant_memberLiterals? hliterals⟩

end

end Value

/-! ## §2 Substitution -/

namespace Literal

/-- The literal is a reference to a variable without value. -/
def isUnbound (bindings : Members) : Literal → Bool
  | .reference _ name => (bindings.lookup name).isNone
  | _ => false

mutual

/-- The literal with its variables replaced: a bound reference by the literal
form of its value, if that has one; an unbound item of a list by null; an
object field whose value is unbound by nothing. -/
def substituted (bindings : Members) : Literal → Literal
  | .reference location name =>
    ((bindings.lookup name).bind (Value.literal? location)).getD (.reference location name)
  | .list location items => .list location (itemsSubstituted bindings items)
  | .object location fields => .object location (fieldsSubstituted bindings fields)
  | literal => literal

/-- The items of a list with their variables replaced. -/
def itemsSubstituted (bindings : Members) : List Literal → List Literal
  | [] => []
  | item :: rest =>
    (if item.isUnbound bindings then .null item.location else substituted bindings item)
      :: itemsSubstituted bindings rest

/-- The fields of an object with their variables replaced. -/
def fieldsSubstituted (bindings : Members) : List (Entry Literal) → List (Entry Literal)
  | [] => []
  | ⟨name, value, location⟩ :: rest =>
    if value.isUnbound bindings then fieldsSubstituted bindings rest
    else ⟨name, substituted bindings value, location⟩ :: fieldsSubstituted bindings rest

end

mutual

/-- The object fields that substitution removes, each with its path and place. -/
def omitted (bindings : Members) (path : Bytes) : Literal → List (Bytes × Location)
  | .list _ items => itemsOmitted bindings path 0 items
  | .object _ fields => fieldsOmitted bindings path fields
  | _ => []

/-- The fields removed in the items of a list, from a position on. -/
def itemsOmitted (bindings : Members) (path : Bytes) :
    Nat → List Literal → List (Bytes × Location)
  | _, [] => []
  | index, item :: rest =>
    omitted bindings (partPath path (decimal index)) item
      ++ itemsOmitted bindings path (index + 1) rest

/-- The fields removed from an object and inside its other fields. -/
def fieldsOmitted (bindings : Members) (path : Bytes) :
    List (Entry Literal) → List (Bytes × Location)
  | [] => []
  | ⟨name, value, location⟩ :: rest =>
    (if value.isUnbound bindings then [(partPath path name, location)]
      else omitted bindings (partPath path name) value)
      ++ fieldsOmitted bindings path rest

end

/-- The keys of an object literal differ from each other. -/
def KeysDiffer : Literal → Prop
  | .object _ fields => (fields.map (·.name)).Nodup
  | _ => True

/-- The keys of every object differ, at any depth. -/
def DistinctKeys (literal : Literal) : Prop := ∀ node ∈ literal.nodes, node.KeysDiffer

theorem names_fieldsSubstituted (bindings : Members) (fields : List (Entry Literal)) :
    ((fieldsSubstituted bindings fields).map (·.name)).Sublist (fields.map (·.name)) := by
  induction fields with
  | nil => exact .slnil
  | cons field rest ih =>
    obtain ⟨name, value, location⟩ := field
    rw [fieldsSubstituted]
    split
    · exact ih.cons _
    · exact ih.cons_cons _

mutual

/-- Nothing refers to a variable any more if the values have literal forms. -/
theorem constant_substituted {bindings : Members}
    (hforms : ∀ member ∈ bindings, ∀ location, (member.2.literal? location).isSome = true) :
    ∀ {literal : Literal}, literal.isUnbound bindings = false →
    (literal.substituted bindings).Constant
  | .reference location name, h => by
    rw [isUnbound, Option.isNone_eq_false_iff, Option.isSome_iff_exists] at h
    obtain ⟨value, hvalue⟩ := h
    obtain ⟨literal, hliteral⟩ :=
      Option.isSome_iff_exists.1 (hforms _ (mem_of_lookup hvalue) location)
    rw [substituted, hvalue, Option.bind_some, hliteral, Option.getD_some]
    exact Value.constant_literal? hliteral
  | .list _ items, _ => by
    rw [substituted]
    exact constant_list.2 (constant_itemsSubstituted hforms items)
  | .object _ fields, _ => by
    rw [substituted]
    exact constant_object.2 (constant_fieldsSubstituted hforms fields)
  | .null _, _ | .int _ _, _ | .float _ _, _ | .string _ _, _ | .boolean _ _, _
  | .enum _ _, _ => by
    intro node hnode
    cases List.mem_singleton.1 hnode
    rfl

/-- Nor do the items of a list. -/
theorem constant_itemsSubstituted {bindings : Members}
    (hforms : ∀ member ∈ bindings, ∀ location, (member.2.literal? location).isSome = true) :
    ∀ items : List Literal, ∀ item ∈ itemsSubstituted bindings items, item.Constant
  | [] => by simp [itemsSubstituted]
  | item :: rest => by
    refine List.forall_mem_cons.2 ⟨?_, constant_itemsSubstituted hforms rest⟩
    split
    · intro node hnode
      cases List.mem_singleton.1 hnode
      rfl
    · rename_i hbound
      exact constant_substituted hforms (by simpa using hbound)

/-- Nor do the fields of an object. -/
theorem constant_fieldsSubstituted {bindings : Members}
    (hforms : ∀ member ∈ bindings, ∀ location, (member.2.literal? location).isSome = true) :
    ∀ fields : List (Entry Literal), ∀ field ∈ fieldsSubstituted bindings fields,
    field.value.Constant
  | [] => by simp [fieldsSubstituted]
  | ⟨name, value, location⟩ :: rest => by
    have ih := constant_fieldsSubstituted hforms rest
    rw [fieldsSubstituted]
    split
    · exact ih
    · rename_i hbound
      exact List.forall_mem_cons.2 ⟨constant_substituted hforms (by simpa using hbound), ih⟩

end

end Literal

/-! ## §3 Agreement -/

variable {m : Type → Type} [Monad m] [LawfulMonad m]

/-- A runtime value settles alike with itself. -/
theorem Value.coerce_settlesBut (schema : Schema m) (location : Option Location) (value : Value)
    (omitted : List (Bytes × Location)) (path : Bytes) :
    (value.coerce schema location).SettlesBut omitted path (value.coerce schema location) := by
  intro type
  have h := value.coerce_settles schema location type path
  rw [← Value.coerce_eq] at h
  refine h.imp fun a b hab => ?_
  obtain ⟨rfl, habsent⟩ := hab
  exact .refl habsent

namespace Literal

variable {schema : Schema m} {bindings : Members} {omitted : List (Bytes × Location)}

omit [LawfulMonad m] in
/-- A reference without value has none. -/
theorem coerce_of_isUnbound : ∀ {literal : Literal}, literal.isUnbound bindings = true →
    literal.coerce schema bindings = fun _ _ => return .absent
  | .reference location name, h => by
    rw [isUnbound, Option.isNone_iff_eq_none] at h
    rw [coerce, h]

omit [LawfulMonad m] in
theorem keys_coerceEntries : ∀ fields : List (Entry Literal),
    (coerceEntries schema bindings fields).map (·.1) = fields.map (·.name)
  | [] => rfl
  | ⟨name, value, location⟩ :: rest => by
    rw [coerceEntries, List.map_cons, List.map_cons, keys_coerceEntries rest]

omit [LawfulMonad m] in
/-- A name that no field has is not found among the coercions of the fields. -/
theorem lookup_coerceEntries {fields : List (Entry Literal)} {name : Bytes}
    (h : name ∉ fields.map (·.name)) :
    (coerceEntries schema bindings fields).lookup name = none :=
  lookup_eq_none_of_keys (by rwa [keys_coerceEntries])

omit [LawfulMonad m] in
mutual

/-- A literal that is no unbound reference itself settles as its substitution. -/
theorem coerce_substituted_settles [LawfulMonad m] :
    ∀ {literal : Literal} {path : Bytes}, literal.DistinctKeys →
    literal.isUnbound bindings = false →
    (∀ site ∈ literal.omitted bindings path, site ∈ omitted) →
    (literal.coerce schema bindings).SettlesBut omitted path
      ((literal.substituted bindings).coerce schema bindings)
  | .reference location name, path, _, h, _ => by
    rw [isUnbound, Option.isNone_eq_false_iff, Option.isSome_iff_exists] at h
    obtain ⟨value, hvalue⟩ := h
    have hcoerce : (Literal.reference location name).coerce schema bindings =
        value.coerce schema (some location) := by rw [coerce, hvalue]
    have hsame : ((Literal.reference location name).substituted bindings).coerce schema bindings =
        value.coerce schema (some location) := by
      rw [substituted, hvalue, Option.bind_some]
      cases hform : value.literal? location with
      | none => exact hcoerce
      | some literal =>
        rw [Option.getD_some, coerce_eq, Value.ofLiteral_literal? bindings hform,
          Value.coerce_eq]
    rw [hcoerce, hsame]
    exact value.coerce_settlesBut schema (some location) omitted path
  | .list location items, path, hkeys, _, homitted => by
    rw [substituted, coerce, coerce]
    exact (itemsSubstituted_agree items (forall_nodes_list.1 hkeys).2 homitted).list
  | .object location fields, path, hkeys, _, homitted => by
    obtain ⟨hdiffer, hfields⟩ := forall_nodes_object.1 hkeys
    rw [substituted, coerce, coerce]
    exact (fieldsSubstituted_agree fields hdiffer hfields homitted).object
  | .null _, _, _, _, _ => Coercion.null_settlesBut
  | .int _ _, _, _, _, _ | .float _ _, _, _, _, _ | .string _ _, _, _, _, _
  | .boolean _ _, _, _, _, _ | .enum _ _, _, _, _, _ => Coercion.scalar_settlesBut

/-- The items of a list settle as their substitutions, unbound ones as null. -/
theorem itemsSubstituted_agree [LawfulMonad m] :
    ∀ (items : List Literal) {path : Bytes} {index : Nat},
    (∀ item ∈ items, item.DistinctKeys) →
    (∀ site ∈ itemsOmitted bindings path index items, site ∈ omitted) →
    Coercion.ItemsAgree schema omitted path index (coerceItems schema bindings items)
      (coerceItems schema bindings (itemsSubstituted bindings items))
  | [], _, _, _, _ => .nil
  | item :: rest, path, index, hkeys, homitted => by
    obtain ⟨hkey, hrest⟩ := List.forall_mem_cons.1 hkeys
    rw [itemsOmitted, List.forall_mem_append] at homitted
    rw [itemsSubstituted, coerceItems, coerceItems]
    refine .cons ?_ (itemsSubstituted_agree rest hrest homitted.2)
    by_cases hunbound : item.isUnbound bindings = true
    · rw [if_pos hunbound, coerce_of_isUnbound hunbound]
      exact Coercion.orNull_absent_settlesBut
    · rw [if_neg hunbound]
      exact (coerce_substituted_settles hkey (by simpa using hunbound) homitted.1).orNull

/-- The fields of an object settle as their substitutions, unbound ones apart. -/
theorem fieldsSubstituted_agree [LawfulMonad m] : ∀ (fields : List (Entry Literal)) {path : Bytes},
    (fields.map (·.name)).Nodup → (∀ field ∈ fields, field.value.DistinctKeys) →
    (∀ site ∈ fieldsOmitted bindings path fields, site ∈ omitted) →
    Coercion.FieldsAgree omitted path (coerceEntries schema bindings fields)
      (coerceEntries schema bindings (fieldsSubstituted bindings fields))
  | [], _, _, _, _ => .nil
  | ⟨name, value, location⟩ :: rest, path, hdiffer, hkeys, homitted => by
    obtain ⟨hname, hdiffer⟩ := List.nodup_cons.1 hdiffer
    obtain ⟨hkey, hrest⟩ := List.forall_mem_cons.1 hkeys
    rw [fieldsOmitted, List.forall_mem_append] at homitted
    have ih := fieldsSubstituted_agree rest hdiffer hrest homitted.2
    rw [fieldsSubstituted, coerceEntries]
    by_cases hunbound : value.isUnbound bindings = true
    · rw [if_pos hunbound] at homitted ⊢
      rw [coerce_of_isUnbound hunbound]
      refine .absent (homitted.1 _ (List.mem_singleton_self _)) (lookup_coerceEntries ?_) ih
      exact fun hmem => hname ((names_fieldsSubstituted bindings rest).subset hmem)
    · rw [if_neg hunbound] at homitted ⊢
      rw [coerceEntries]
      exact .cons (coerce_substituted_settles hkey (by simpa using hunbound) homitted.1) ih

end

end Literal

/-! ## §4 Denotation -/

namespace Literal

mutual

/-- The value that a literal without variables denotes. -/
def denoted : Literal → Value
  | .list _ items => .list (itemsDenoted items)
  | .object _ fields => .object (fieldsDenoted fields)
  | literal => literal.scalarValue

/-- The values of the items of a list. -/
def itemsDenoted : List Literal → List Value
  | [] => []
  | item :: rest => denoted item :: itemsDenoted rest

/-- The members that the fields of an object denote. -/
def fieldsDenoted : List (Entry Literal) → Members
  | [] => []
  | ⟨name, value, _⟩ :: rest => (name, denoted value) :: fieldsDenoted rest

end

variable {schema : Schema m} {bindings : Members} {location : Option Location}

omit [LawfulMonad m] in
mutual

/-- A literal without variables settles as the value that it denotes. -/
theorem coerce_denoted_settles [LawfulMonad m] :
    ∀ {literal : Literal} {path : Bytes}, literal.Constant →
    (literal.coerce schema bindings).SettlesBut [] path
      ((Input.ofValue location literal.denoted).coerce schema)
  | .reference _ _, _, h => by
    have hreference := h _ (List.mem_singleton_self _)
    simp [isReference] at hreference
  | .list _ items, _, h => by
    rw [coerce, denoted, Input.ofValue, Input.coerce]
    exact (itemsDenoted_agree items (constant_list.1 h)).list
  | .object _ fields, _, h => by
    rw [coerce, denoted, Input.ofValue, Input.coerce]
    exact (fieldsDenoted_agree fields (constant_object.1 h)).object
  | .null _, _, _ => Coercion.null_settlesBut
  | .int _ _, _, _ | .float _ _, _, _ | .string _ _, _, _ | .boolean _ _, _, _
  | .enum _ _, _, _ => Coercion.scalar_settlesBut

/-- So do the items of a list. -/
theorem itemsDenoted_agree [LawfulMonad m] : ∀ (items : List Literal) {path : Bytes} {index : Nat},
    (∀ item ∈ items, item.Constant) →
    Coercion.ItemsAgree schema [] path index (coerceItems schema bindings items)
      (Input.coerceItems schema (Input.ofValues location (itemsDenoted items)))
  | [], _, _, _ => .nil
  | _ :: rest, _, _, h =>
    have ⟨hitem, hrest⟩ := List.forall_mem_cons.1 h
    .cons (coerce_denoted_settles hitem).orNull (itemsDenoted_agree rest hrest)

/-- So do the fields of an object. -/
theorem fieldsDenoted_agree [LawfulMonad m] : ∀ (fields : List (Entry Literal)) {path : Bytes},
    (∀ field ∈ fields, field.value.Constant) →
    Coercion.FieldsAgree [] path (coerceEntries schema bindings fields)
      (Input.coerceFields schema (Input.ofMembers location (fieldsDenoted fields)))
  | [], _, _ => .nil
  | ⟨_, _, _⟩ :: rest, _, h =>
    have ⟨hvalue, hrest⟩ := List.forall_mem_cons.1 h
    .cons (coerce_denoted_settles hvalue) (fieldsDenoted_agree rest hrest)

end

/-- Up to the places of issues, a literal without variables is coerced as the
value that it denotes. -/
theorem coerce_denoted {literal : Literal} (h : literal.Constant) (type : TypeExpr TypeId)
    (path : Bytes) :
    Coerced.unlocated <$> literal.coerce schema bindings type path =
      Coerced.unlocated <$> literal.denoted.coerce schema location type path := by
  rw [Value.coerce_eq]
  have hsettles : (literal.coerce schema bindings).SettlesBut [] path
      ((Input.ofValue location literal.denoted).coerce schema) := coerce_denoted_settles h
  exact ((hsettles type).map fun a b hab => hab.1.unlocated_eq).eq fun _ _ heq => heq

end Literal

/-! ## §5 Integers -/

namespace Value

mutual

/-- The value with its unsigned integers made signed where these have a signed
form. -/
def signed : Value → Value
  | .uint n => if n.toNat < 9223372036854775808 then .int (Int64.ofNat n.toNat) else .uint n
  | .list items => .list (itemsSigned items)
  | .object members => .object (membersSigned members)
  | value => value

/-- The items of a list, made signed. -/
def itemsSigned : List Value → List Value
  | [] => []
  | item :: rest => signed item :: itemsSigned rest

/-- The members of an object, made signed. -/
def membersSigned : List (Bytes × Value) → List (Bytes × Value)
  | [] => []
  | (key, value) :: rest => (key, signed value) :: membersSigned rest

end

theorem lookup_membersSigned (name : Bytes) : ∀ members : Members,
    (membersSigned members).lookup name = (members.lookup name).map signed
  | [] => rfl
  | (key, value) :: rest => by
    rw [membersSigned, List.lookup_cons, List.lookup_cons, lookup_membersSigned name rest]
    cases name == key <;> rfl

end Value

/-- The scalars of a schema take an unsigned integer as they take its signed form. -/
def Schema.IgnoresSigns {m : Type → Type} (schema : Schema m) : Prop :=
  ∀ type ∈ schema.types, ∀ coerce, type.body = .scalar coerce →
    ∀ n, coerce (Value.uint n).signed = coerce (.uint n)

theorem Scalar.signed_of_builtIn {scalar : Bytes × (Value → Option Value)}
    (h : scalar ∈ Scalar.builtIn) (n : UInt64) : scalar.2 (Value.uint n).signed =
    scalar.2 (.uint n) := by
  rw [Value.signed]
  split
  · rename_i hlt
    have hn : (Int64.ofNat n.toNat).toInt = n.toNat := Int64.toInt_ofNat_of_lt hlt
    unfold builtIn at h
    simp only [List.mem_cons, List.not_mem_nil, or_false] at h
    rcases h with rfl | rfl | rfl | rfl | rfl
    · rfl
    · exact (int?_uint hn).symm
    · simp [float?, hn]
    · rfl
    · simp [id?, hn, decimalInt]
  · rfl

/-- No built-in scalar tells signed and unsigned integers apart. -/
theorem Build.ignoresSigns_of_builtInTypes {m : Type → Type} [Monad m] {type : NamedType m}
    (h : type ∈ builtInTypes) {coerce : Coercer m} (hbody : type.body = .scalar coerce)
    (n : UInt64) : coerce (Value.uint n).signed = coerce (.uint n) := by
  obtain ⟨scalar, hscalar, rfl⟩ := List.mem_map.1 h
  cases hbody
  exact congrArg pure (Scalar.signed_of_builtIn hscalar n)

section Signed

variable {m : Type → Type} [Monad m] {schema : Schema m}

theorem Coercion.scalar_signed (hsigns : schema.IgnoresSigns) (location : Option Location)
    (n : UInt64) :
    scalar schema location (Value.uint n).signed = scalar schema location (.uint n) := by
  unfold scalar
  congr 1
  funext id path
  unfold atBody
  cases hbody : schema.body? id with
  | none => rfl
  | some body =>
    cases body with
    | scalar coerce =>
      obtain ⟨type, htype, hscalar⟩ := Schema.exists_of_body? hbody
      simp only [hsigns type htype coerce hscalar n]
    | _ => rfl

namespace Value

mutual

/-- Making unsigned integers signed changes nothing where scalars take both alike. -/
theorem coerce_signed (hsigns : schema.IgnoresSigns) (location : Option Location) :
    ∀ value : Value, value.signed.coerce schema location = value.coerce schema location
  | .uint n => by
    have h := Coercion.scalar_signed hsigns location n
    rw [signed] at h ⊢
    split
    · rename_i hlt
      rwa [if_pos hlt] at h
    · rfl
  | .list items => by rw [signed, coerce, coerce, coerceItems_signed hsigns location items]
  | .object members => by rw [signed, coerce, coerce, coerceMembers_signed hsigns location members]
  | .null | .bool _ | .int _ | .float _ | .string _ => rfl

/-- Nor for the items of a list. -/
theorem coerceItems_signed (hsigns : schema.IgnoresSigns) (location : Option Location) :
    ∀ items : List Value,
    coerceItems schema location (itemsSigned items) = coerceItems schema location items
  | [] => rfl
  | item :: rest => by
    rw [itemsSigned, coerceItems, coerceItems, coerce_signed hsigns location item,
      coerceItems_signed hsigns location rest]

/-- Nor for the members of an object. -/
theorem coerceMembers_signed (hsigns : schema.IgnoresSigns) (location : Option Location) :
    ∀ members : List (Bytes × Value),
    coerceMembers schema location (membersSigned members) = coerceMembers schema location members
  | [] => rfl
  | (key, value) :: rest => by
    rw [membersSigned, coerceMembers, coerceMembers, coerce_signed hsigns location value,
      coerceMembers_signed hsigns location rest]

end

end Value

namespace Literal

mutual

/-- Nor for the values of variables. -/
theorem coerce_membersSigned (hsigns : schema.IgnoresSigns) (bindings : Members) :
    ∀ literal : Literal,
    literal.coerce schema (Value.membersSigned bindings) = literal.coerce schema bindings
  | .reference location name => by
    rw [coerce, coerce, Value.lookup_membersSigned]
    cases bindings.lookup name with
    | none => rfl
    | some value => exact value.coerce_signed hsigns (some location)
  | .list _ items => by rw [coerce, coerce, coerceItems_membersSigned hsigns bindings items]
  | .object _ fields => by
    rw [coerce, coerce, coerceEntries_membersSigned hsigns bindings fields]
  | .null _ | .int _ _ | .float _ _ | .string _ _ | .boolean _ _ | .enum _ _ => rfl

/-- Nor in the items of a list literal. -/
theorem coerceItems_membersSigned (hsigns : schema.IgnoresSigns) (bindings : Members) :
    ∀ items : List Literal,
    coerceItems schema (Value.membersSigned bindings) items = coerceItems schema bindings items
  | [] => rfl
  | item :: rest => by
    rw [coerceItems, coerceItems, coerce_membersSigned hsigns bindings item,
      coerceItems_membersSigned hsigns bindings rest]

/-- Nor in the fields of an object literal. -/
theorem coerceEntries_membersSigned (hsigns : schema.IgnoresSigns) (bindings : Members) :
    ∀ fields : List (Entry Literal),
    coerceEntries schema (Value.membersSigned bindings) fields =
      coerceEntries schema bindings fields
  | [] => rfl
  | ⟨name, value, location⟩ :: rest => by
    rw [coerceEntries, coerceEntries, coerce_membersSigned hsigns bindings value,
      coerceEntries_membersSigned hsigns bindings rest]

end

end Literal

end Signed

/-! ## §6 Laws -/

/-- Variables are abbreviations of their values, and literals without variables
are read as runtime values are. Replacing the variables of a literal that is no
unbound reference itself keeps its outcome and its issues, in their order and
up to their places; only notices about the fields that are removed go away.
Nothing refers to a variable then, if the values have literal forms, and this
is so up to unsigned integers, which may be made signed unless a scalar tells
the two apart. -/
theorem Literal.coerce_substituted {m : Type → Type} [Monad m] [LawfulMonad m]
    (schema : Schema m) (bindings : Members) {literal : Literal} (hkeys : literal.DistinctKeys)
    (hbound : literal.isUnbound bindings = false) (type : TypeExpr TypeId) (path : Bytes) :
    InStep (Coerced.AgreesBut (literal.omitted bindings path))
      (literal.coerce schema bindings type path)
      ((literal.substituted bindings).coerce schema bindings type path) ∧
    (∀ constant : Literal, constant.Constant → ∀ location,
      Coerced.unlocated <$> constant.coerce schema bindings type path =
        Coerced.unlocated <$> constant.denoted.coerce schema location type path) ∧
    ((∀ member ∈ bindings, ∀ location, (member.2.literal? location).isSome = true) →
      (literal.substituted bindings).Constant) ∧
    (schema.IgnoresSigns →
      literal.coerce schema (Value.membersSigned bindings) = literal.coerce schema bindings) := by
  refine ⟨?_, fun constant hconstant location => ?_, fun hforms => ?_, fun hsigns => ?_⟩
  · exact (coerce_substituted_settles hkeys hbound (fun _ hsite => hsite) type).imp
      fun _ _ h => h.1
  · exact coerce_denoted hconstant type path
  · exact constant_substituted hforms hbound
  · exact coerce_membersSigned hsigns bindings literal

/-- A schema with an input type for filters, one of whose fields is deprecated. -/
def Schema.filtering : Schema Id where
  types := Build.builtInTypes ++ [
    .of (utf8 "Filter") [] (.inputObject [
      ⟨utf8 "limits", .list (.named 1), none, none, []⟩,
      ⟨utf8 "strict", .named 3, none, some ⟨none⟩, []⟩])]
  query := 5
  mutation := none

/-- A filter with a bound variable and three unbound ones. -/
def Literal.filter : Literal :=
  .object ⟨1, 1⟩ [
    ⟨utf8 "limits", .list ⟨1, 10⟩ [.reference ⟨1, 11⟩ (utf8 "a"), .reference ⟨1, 14⟩ (utf8 "b")],
      ⟨1, 2⟩⟩,
    ⟨utf8 "strict", .reference ⟨2, 9⟩ (utf8 "b"), ⟨2, 1⟩⟩,
    ⟨utf8 "other", .reference ⟨3, 8⟩ (utf8 "b"), ⟨3, 1⟩⟩]

theorem Schema.ignoresSigns_filtering : Schema.filtering.IgnoresSigns := by
  intro type htype coerce hbody
  rcases List.mem_append.1 htype with hbuiltIn | hfilter
  · exact Build.ignoresSigns_of_builtInTypes hbuiltIn hbody
  · cases List.mem_singleton.1 hfilter
    cases hbody

/-- The unbound item reads as null, and there are notices about the other fields. -/
theorem Literal.coerce_filter :
    (Literal.filter.coerce Schema.filtering [(utf8 "a", .uint 3)] (.named 5) []).run =
      .ok ⟨.ok (.object [(utf8 "limits", .list [.int 3, .null])]),
        [⟨.unknown, utf8 "other", [], some ⟨3, 1⟩⟩,
          ⟨.deprecated ⟨none⟩, utf8 "strict", utf8 "Boolean", some ⟨2, 1⟩⟩]⟩ := by
  decide +kernel

theorem Literal.coerce_filterSubstituted :
    ((Literal.filter.substituted (Value.membersSigned [(utf8 "a", .uint 3)])).coerce
      Schema.filtering (Value.membersSigned [(utf8 "a", .uint 3)]) (.named 5) []).run =
      .ok (.ok (.object [(utf8 "limits", .list [.int 3, .null])])) := by
  decide +kernel

/-- The unbound item reads as null, and the notices about the removed fields,
one deprecated and one unknown, go away with them. What is left is read as the
runtime value that it denotes, also if the variable's value was unsigned. -/
theorem Literal.coerce_substituted_filter :
    let bindings := [(utf8 "a", .uint 3)]
    let signed := Value.membersSigned bindings
    let substituted := Literal.filter.substituted signed
    let value := Value.object [(utf8 "limits", .list [.int 3, .null])]
    (Literal.filter.DistinctKeys ∧ Literal.filter.isUnbound signed = false ∧
      (∀ member ∈ signed, ∀ location, (member.2.literal? location).isSome = true) ∧
      Schema.filtering.IgnoresSigns) ∧
    (Literal.filter.coerce Schema.filtering bindings (.named 5) []).run =
      .ok ⟨.ok value, [⟨.unknown, utf8 "other", [], some ⟨3, 1⟩⟩,
        ⟨.deprecated ⟨none⟩, utf8 "strict", utf8 "Boolean", some ⟨2, 1⟩⟩]⟩ ∧
    (substituted.coerce Schema.filtering signed (.named 5) []).run = .ok (.ok value) ∧
    InStep (Coerced.AgreesBut (Literal.filter.omitted signed []))
      (Literal.filter.coerce Schema.filtering signed (.named 5) [])
      (substituted.coerce Schema.filtering signed (.named 5) []) ∧
    substituted.denoted = value ∧ Coerced.unlocated <$>
        substituted.coerce Schema.filtering signed (.named 5) [] =
      Coerced.unlocated <$> value.coerce Schema.filtering none (.named 5) [] ∧
    Literal.filter.coerce Schema.filtering signed =
      Literal.filter.coerce Schema.filtering bindings := by
  intro bindings signed substituted value
  have hkeys : Literal.filter.DistinctKeys := by
    intro node hnode
    simp only [Literal.filter, nodes, itemNodes, fieldNodes, List.append_nil, List.cons_append,
      List.nil_append, List.mem_cons, List.not_mem_nil, or_false] at hnode
    rcases hnode with rfl | rfl | rfl | rfl | rfl | rfl
    · unfold KeysDiffer
      decide
    all_goals trivial
  have hforms : ∀ member ∈ signed, ∀ location, (member.2.literal? location).isSome = true := by
    intro member hmember location
    rw [List.mem_singleton.1 hmember]
    rfl
  obtain ⟨hagree, hdenoted, hconstant, _⟩ :=
    coerce_substituted Schema.filtering signed hkeys rfl (.named 5) []
  obtain ⟨_, _, _, hsigned⟩ :=
    coerce_substituted Schema.filtering bindings hkeys rfl (.named 5) []
  exact ⟨⟨hkeys, rfl, hforms, Schema.ignoresSigns_filtering⟩, coerce_filter,
    coerce_filterSubstituted, hagree, rfl, hdenoted substituted (hconstant hforms) none,
    hsigned Schema.ignoresSigns_filtering⟩

end GraphQL
