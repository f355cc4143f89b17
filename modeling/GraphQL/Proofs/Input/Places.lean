/-
GraphQL.Proofs.Input.Places — where issues with input point to.

  §1 Places     — the places of a literal, of a field and of input.
  §2 Results    — results whose issues point to given places.
  §3 Coercions  — lists, objects and what is neither of them.
  §4 Input      — issues with literals point into the literals.
  §5 Arguments  — records about arguments point into the field.

A coercion that fails has an issue that says so, and every issue has the place
of a part of the input. The value of a variable has no places of its own, so
issues with it point to the reference. That a record stands at one place of
its field is what follows for arguments.
-/
import GraphQL.Input.Arguments
import GraphQL.Proofs.Document.WellFormed
import GraphQL.Proofs.Input.Agreement
import GraphQL.Proofs.Input.Report
import GraphQL.Proofs.Input.SoundCoercion
import GraphQL.Proofs.Value.Members

namespace GraphQL

open MonadAttach (CanReturn)
open LawfulMonadAttach (canReturn_bind_imp' eq_of_canReturn_pure)

/-! ## §1 Places -/

namespace Literal

mutual

/-- The places of the literal: its own, and those of its items or fields. -/
def places : Literal → List Location
  | .list location items => location :: itemPlaces items
  | .object location fields => location :: fieldPlaces fields
  | literal => [literal.location]

/-- The places of items. -/
def itemPlaces : List Literal → List Location
  | [] => []
  | item :: rest => item.places ++ itemPlaces rest

/-- The places of what stands under names, be it in an object or among arguments,
and of the values that are given there. -/
def fieldPlaces : List (Entry Literal) → List Location
  | [] => []
  | ⟨_, value, location⟩ :: rest => location :: value.places ++ fieldPlaces rest

end

theorem mem_fieldPlaces {fields : List (Entry Literal)} {field : Entry Literal}
    (h : field ∈ fields) :
    field.location ∈ fieldPlaces fields ∧
      ∀ place ∈ field.value.places, place ∈ fieldPlaces fields := by
  induction fields with
  | nil => cases h
  | cons first rest ih =>
    rcases List.mem_cons.1 h with rfl | hrest
    · exact ⟨by simp [fieldPlaces], fun place hplace => by simp [fieldPlaces, hplace]⟩
    · obtain ⟨hlocation, hvalue⟩ := ih hrest
      exact ⟨by simp [fieldPlaces, hlocation],
        fun place hplace => by simp [fieldPlaces, hvalue place hplace]⟩

end Literal

/-- The places of a field: its own, and those inside its arguments. -/
def Field.places (field : Field) : List Location :=
  field.location :: Literal.fieldPlaces field.arguments

namespace Input

mutual

/-- The places of input, one for each part. -/
def places : Input → List (Option Location)
  | .list location items => location :: itemPlaces items
  | .object location fields => location :: fieldPlaces fields
  | input => [input.location]

/-- The places of items. -/
def itemPlaces : List Input → List (Option Location)
  | [] => []
  | item :: rest => item.places ++ itemPlaces rest

/-- The places of fields and of what is given for them. -/
def fieldPlaces : List (Bytes × Option Location × Input) → List (Option Location)
  | [] => []
  | (_, location, input) :: rest => location :: input.places ++ fieldPlaces rest

end

theorem location_mem_places (input : Input) : input.location ∈ input.places := by
  cases input <;> simp [places, location]

mutual

/-- A runtime value has the place where it was given, and no other. -/
theorem places_ofValue (location : Option Location) : ∀ value : Value,
    ∀ place ∈ (ofValue location value).places, place = location
  | .list items => by
    simpa [ofValue, places] using itemPlaces_ofValues location items
  | .object members => by
    simpa [ofValue, places] using fieldPlaces_ofMembers location members
  | .null | .bool _ | .int _ | .uint _ | .float _ | .string _ => by
    simp [ofValue, places, Input.location]

theorem itemPlaces_ofValues (location : Option Location) : ∀ values : List Value,
    ∀ place ∈ itemPlaces (ofValues location values), place = location
  | [] => by simp [ofValues, itemPlaces]
  | value :: rest => by
    have hvalue := places_ofValue location value
    have hrest := itemPlaces_ofValues location rest
    intro place hplace
    rcases List.mem_append.1 hplace with hfirst | hlater
    · exact hvalue place hfirst
    · exact hrest place hlater

theorem fieldPlaces_ofMembers (location : Option Location) : ∀ members : List (Bytes × Value),
    ∀ place ∈ fieldPlaces (ofMembers location members), place = location
  | [] => by simp [ofMembers, fieldPlaces]
  | (_, value) :: rest => by
    have hvalue := places_ofValue location value
    have hrest := fieldPlaces_ofMembers location rest
    intro place hplace
    rcases List.mem_cons.1 hplace with rfl | hplace
    · rfl
    · rcases List.mem_append.1 hplace with hfirst | hlater
      · exact hvalue place hfirst
      · exact hrest place hlater

end

mutual

/-- A literal has the same places as input. The value of a variable has the place of the
reference. -/
theorem places_ofLiteral (bindings : Members) : ∀ literal : Literal,
    ∀ place ∈ (ofLiteral bindings literal).places, place ∈ literal.places.map some
  | .reference location name => by
    unfold ofLiteral
    cases bindings.lookup name with
    | none => simp [places, Literal.places, Input.location, Literal.location]
    | some value =>
      intro place hplace
      simp [places_ofValue _ value place hplace, Literal.places, Literal.location]
  | .list location items => by
    have hitems := itemPlaces_ofLiterals bindings items
    intro place hplace
    rcases List.mem_cons.1 hplace with rfl | hplace
    · exact List.mem_cons_self
    · exact List.mem_cons_of_mem _ (hitems place hplace)
  | .object location fields => by
    have hfields := fieldPlaces_ofEntries bindings fields
    intro place hplace
    rcases List.mem_cons.1 hplace with rfl | hplace
    · exact List.mem_cons_self
    · exact List.mem_cons_of_mem _ (hfields place hplace)
  | .null _ | .int _ _ | .float _ _ | .string _ _ | .boolean _ _ | .enum _ _ => by
    simp [ofLiteral, places, Literal.places, Input.location, Literal.location]

theorem itemPlaces_ofLiterals (bindings : Members) : ∀ items : List Literal,
    ∀ place ∈ itemPlaces (ofLiterals bindings items), place ∈ (Literal.itemPlaces items).map some
  | [] => by simp [ofLiterals, itemPlaces]
  | item :: rest => by
    have hitem := places_ofLiteral bindings item
    have hrest := itemPlaces_ofLiterals bindings rest
    intro place hplace
    rw [Literal.itemPlaces, List.map_append]
    rcases List.mem_append.1 hplace with hfirst | hlater
    · exact List.mem_append_left _ (hitem place hfirst)
    · exact List.mem_append_right _ (hrest place hlater)

theorem fieldPlaces_ofEntries (bindings : Members) : ∀ fields : List (Entry Literal),
    ∀ place ∈ fieldPlaces (ofEntries bindings fields), place ∈ (Literal.fieldPlaces fields).map some
  | [] => by simp [ofEntries, fieldPlaces]
  | ⟨name, value, location⟩ :: rest => by
    have hvalue := places_ofLiteral bindings value
    have hrest := fieldPlaces_ofEntries bindings rest
    intro place hplace
    rw [Literal.fieldPlaces, List.map_append, List.map_cons]
    rcases List.mem_append.1 hplace with hfirst | hlater
    · refine List.mem_append_left _ ?_
      rcases List.mem_cons.1 hfirst with rfl | hfirst
      · exact List.mem_cons_self
      · exact List.mem_cons_of_mem _ (hvalue place hfirst)
    · exact List.mem_append_right _ (hrest place hlater)

end

end Input

/-! ## §2 Results -/

/-- All issues point to one of the places, and a failure has an issue that says so. -/
structure Coerced.IssuedAt (places : List (Option Location)) (coerced : Coerced) : Prop where
  placed : ∀ issue ∈ coerced.issues, issue.location ∈ places
  fails : coerced.outcome = .failed → SomeFails coerced.issues

/-- The result is a value or a failure as well. -/
structure Coerced.SettledAt (places : List (Option Location)) (coerced : Coerced) : Prop extends
    coerced.IssuedAt places where
  settled : coerced.outcome ≠ .absent

/-- The same of the parts of a list or an object. -/
structure PartsIssuedAt {α : Type} (places : List (Option Location))
    (parts : Option α × List Issue) : Prop where
  placed : ∀ issue ∈ parts.2, issue.location ∈ places
  fails : parts.1 = none → SomeFails parts.2

namespace Coerced

variable {places more : List (Option Location)} {coerced : Coerced}

theorem settledAt_ok (value : Value) : (ok value).SettledAt places :=
  ⟨⟨nofun, nofun⟩, nofun⟩

theorem settledAt_fail {issue : Issue} (hfailing : issue.failing = true)
    (hplace : issue.location ∈ places) : (fail issue).SettledAt places :=
  ⟨⟨fun _ hissue => by rwa [List.mem_singleton.1 hissue],
    fun _ => ⟨issue, List.mem_cons_self, hfailing⟩⟩, nofun⟩

theorem issuedAt_absent : absent.IssuedAt places := ⟨nofun, nofun⟩

theorem IssuedAt.mono (h : coerced.IssuedAt places) (hmore : ∀ place ∈ places, place ∈ more) :
    coerced.IssuedAt more :=
  ⟨fun issue hissue => hmore _ (h.placed issue hissue), h.fails⟩

theorem SettledAt.map {f : Value → Value} (h : coerced.SettledAt places) :
    (coerced.map f).SettledAt places := by
  obtain ⟨outcome, issues⟩ := coerced
  cases outcome with
  | ok value => exact ⟨⟨h.placed, nofun⟩, nofun⟩
  | absent => exact absurd rfl h.settled
  | failed => exact h

/-- Notices may come before the issues. -/
theorem IssuedAt.with_notices {notices : List Issue} (h : coerced.IssuedAt places)
    (hnotices : ∀ issue ∈ notices, issue.location ∈ places) :
    IssuedAt places { coerced with issues := notices ++ coerced.issues } where
  placed issue hissue := (List.mem_append.1 hissue).elim (hnotices issue) (h.placed issue)
  fails hfailed := (h.fails hfailed).append_right

end Coerced

namespace PartsIssuedAt

variable {α β : Type} {places : List (Option Location)} {parts : Option α × List Issue}

theorem nil (value : α) : PartsIssuedAt places (some value, []) := ⟨nofun, nofun⟩

/-- One part before the others. Together they fail only if one of them does. -/
theorem cons {coerced : Coerced} {later : Option α × List Issue} {together : Option β}
    (hfirst : coerced.IssuedAt places) (hlater : PartsIssuedAt places later)
    (htogether : together = none → coerced.outcome = .failed ∨ later.1 = none) :
    PartsIssuedAt places (together, coerced.issues ++ later.2) where
  placed issue hissue := (List.mem_append.1 hissue).elim (hfirst.placed issue) (hlater.placed issue)
  fails hnone := (htogether hnone).elim (fun hfailed => (hfirst.fails hfailed).append_left)
    fun hnone => (hlater.fails hnone).append_right

/-- Issues of the whole may come before those of the parts. -/
theorem with_issues {own : List Issue} (h : PartsIssuedAt places parts)
    (hown : ∀ issue ∈ own, issue.location ∈ places) :
    PartsIssuedAt places (parts.1, own ++ parts.2) where
  placed issue hissue := (List.mem_append.1 hissue).elim (hown issue) (h.placed issue)
  fails hnone := (h.fails hnone).append_right

/-- Parts that have values make a whole, and others make it fail. -/
theorem settledAt (h : PartsIssuedAt places parts) {outcome : Outcome}
    (hfailed : outcome = .failed → parts.1 = none) (hsettled : outcome ≠ .absent) :
    Coerced.SettledAt places ⟨outcome, parts.2⟩ :=
  ⟨⟨h.placed, fun houtcome => h.fails (hfailed houtcome)⟩, hsettled⟩

end PartsIssuedAt

/-! ## §3 Coercions -/

variable {m : Type → Type} [Monad m] [LawfulMonad m] [MonadAttach m] [LawfulMonadAttach m]

namespace Coercion

variable {schema : Schema m} {location : Option Location} {places : List (Option Location)}

/-- Whatever the coercion gives has its issues at the places. -/
def IssuesAt (places : List (Option Location)) (coercion : Coercion m) : Prop :=
  ∀ type path coerced, CanReturn (coercion type path) coerced → coerced.IssuedAt places

/-- The coercion settles as well. -/
def SettlesAt (places : List (Option Location)) (coercion : Coercion m) : Prop :=
  ∀ type path coerced, CanReturn (coercion type path) coerced → coerced.SettledAt places

omit [LawfulMonad m] [LawfulMonadAttach m] in
theorem SettlesAt.issuesAt {coercion : Coercion m} (h : coercion.SettlesAt places) :
    coercion.IssuesAt places :=
  fun type path coerced hcoerced => (h type path coerced hcoerced).toIssuedAt

omit [LawfulMonad m] [LawfulMonadAttach m] in
theorem IssuesAt.mono {more : List (Option Location)} {coercion : Coercion m}
    (h : coercion.IssuesAt places) (hmore : ∀ place ∈ places, place ∈ more) :
    coercion.IssuesAt more :=
  fun type path coerced hcoerced => (h type path coerced hcoerced).mono hmore

omit [Monad m] [LawfulMonad m] [MonadAttach m] [LawfulMonadAttach m] in
theorem settledAt_invalid (hplace : location ∈ places) {type : TypeExpr TypeId} {path : Bytes} :
    (invalid schema location type path).SettledAt places :=
  Coerced.settledAt_fail rfl hplace

theorem null_settlesAt (hplace : location ∈ places) : (null schema location).SettlesAt places := by
  intro type path coerced h
  cases eq_of_canReturn_pure h
  split
  · exact settledAt_invalid hplace
  · exact Coerced.settledAt_ok _

theorem single_settlesAt {atName : TypeId → Bytes → Engine m Coerced}
    (hname : ∀ id path coerced, CanReturn (atName id path) coerced → coerced.SettledAt places) :
    (single atName).SettlesAt places := by
  intro type path coerced h
  induction type using TypeExpr.reading generalizing coerced with
  | named id => exact hname id path coerced h
  | nonNull inner ih =>
    rw [single_nonNull] at h
    exact ih _ h
  | list element ih =>
    obtain ⟨item, hitem, h⟩ := canReturn_bind_imp' h
    cases eq_of_canReturn_pure h
    exact (ih _ hitem).map

theorem scalar_settlesAt (hplace : location ∈ places) (value : Value) :
    (scalar schema location value).SettlesAt places := by
  refine single_settlesAt fun id path coerced h => ?_
  obtain ⟨body, _, h⟩ := canReturn_atBody h
  cases body with
  | inputObject declared =>
    cases eq_of_canReturn_pure h
    exact settledAt_invalid hplace
  | object _ => exact absurd h not_canReturn_throw
  | scalar coerce =>
    obtain ⟨given, _, h⟩ := canReturn_bind_imp' h
    cases given with
    | none =>
      cases eq_of_canReturn_pure h
      exact settledAt_invalid hplace
    | some given =>
      cases eq_of_canReturn_pure h
      exact Coerced.settledAt_ok _

/-- What reads as null where it has no value is settled. -/
theorem orNull_settlesAt {item : Coercion m} (hplace : location ∈ places)
    (hitem : item.IssuesAt places) : (item.orNull schema location).SettlesAt places := by
  intro type path coerced h
  obtain ⟨⟨outcome, issues⟩, hgiven, h⟩ := canReturn_bind_imp' h
  have hissued := hitem _ _ _ hgiven
  cases outcome with
  | absent => exact null_settlesAt hplace _ _ _ h
  | ok value =>
    cases eq_of_canReturn_pure h
    exact ⟨hissued, nofun⟩
  | failed =>
    cases eq_of_canReturn_pure h
    exact ⟨hissued, nofun⟩

theorem listItems_issuedAt {items : List (Option Location × Coercion m)}
    (hitems : ∀ item ∈ items, item.1 ∈ places ∧ item.2.IssuesAt places)
    {element : TypeExpr TypeId} {path : Bytes} {index : Nat}
    {parts : Option (List Value) × List Issue}
    (h : CanReturn (listItems schema element path index items) parts) :
    PartsIssuedAt places parts := by
  induction items generalizing index parts with
  | nil =>
    cases eq_of_canReturn_pure h
    exact .nil _
  | cons item rest ih =>
    obtain ⟨⟨hplace, hitem⟩, hrest⟩ := List.forall_mem_cons.1 hitems
    rw [listItems_cons] at h
    obtain ⟨⟨outcome, issues⟩, hcoerced, h⟩ := canReturn_bind_imp' h
    obtain ⟨⟨values, later⟩, hlater, h⟩ := canReturn_bind_imp' h
    cases eq_of_canReturn_pure h
    have hfirst := orNull_settlesAt hplace hitem _ _ _ hcoerced
    refine .cons hfirst.toIssuedAt (ih hrest hlater) fun hnone => ?_
    cases outcome with
    | absent => exact absurd rfl hfirst.settled
    | failed => exact .inl rfl
    | ok value =>
      cases values with
      | none => exact .inr rfl
      | some values => cases hnone

theorem list_settlesAt {items : List (Option Location × Coercion m)} (hplace : location ∈ places)
    (hitems : ∀ item ∈ items, item.1 ∈ places ∧ item.2.IssuesAt places) :
    (list schema location items).SettlesAt places := by
  intro type path coerced h
  induction type using TypeExpr.reading generalizing coerced with
  | named id =>
    obtain ⟨body, _, h⟩ := canReturn_atBody h
    cases eq_of_canReturn_pure h
    exact settledAt_invalid hplace
  | nonNull inner ih =>
    rw [list_nonNull] at h
    exact ih _ h
  | list element ih =>
    obtain ⟨⟨values, issues⟩, hparts, h⟩ := canReturn_bind_imp' h
    cases eq_of_canReturn_pure h
    refine (listItems_issuedAt hitems hparts).settledAt ?_ ?_ <;> cases values <;> simp

omit [Monad m] [LawfulMonad m] [MonadAttach m] [LawfulMonadAttach m] in
theorem missingField_issuedAt {field : Argument} {path : Bytes} (hplace : location ∈ places) :
    (missingField schema field path location).IssuedAt places := by
  unfold missingField
  cases field.default with
  | some value => exact (Coerced.settledAt_ok _).toIssuedAt
  | none =>
    split
    · rename_i hnone
      cases hnone
    · cases field.required with
      | true => exact (Coerced.settledAt_fail rfl hplace).toIssuedAt
      | false => exact Coerced.issuedAt_absent

omit [Monad m] [LawfulMonad m] [MonadAttach m] [LawfulMonadAttach m] in
theorem location_of_mem_deprecationIssues {field : Argument} {path : Bytes} {issue : Issue}
    (h : issue ∈ deprecationIssues schema field path location) : issue.location = location := by
  unfold deprecationIssues at h
  cases hdeprecation : field.deprecation with
  | none => simp [hdeprecation] at h
  | some deprecation =>
    rw [hdeprecation] at h
    rw [List.mem_singleton.1 h]

theorem declaredField_issuedAt {fields : Fields m} (hplace : location ∈ places)
    (hfields : ∀ field ∈ fields, field.2.1 ∈ places ∧ field.2.2.IssuesAt places) {path : Bytes}
    {field : Argument} {coerced : Coerced}
    (h : CanReturn (declaredField schema location fields path field) coerced) :
    coerced.IssuedAt places := by
  unfold declaredField at h
  cases hlookup : fields.lookup field.name with
  | none =>
    rw [hlookup] at h
    cases eq_of_canReturn_pure h
    exact missingField_issuedAt hplace
  | some entry =>
    obtain ⟨fieldLocation, coercion⟩ := entry
    rw [hlookup] at h
    obtain ⟨hfieldPlace, hissues⟩ :=
      hfields (field.name, fieldLocation, coercion) (mem_of_lookup hlookup)
    obtain ⟨⟨outcome, issues⟩, hgiven, h⟩ := canReturn_bind_imp' h
    cases eq_of_canReturn_pure h
    refine Coerced.IssuedAt.with_notices ?_ fun issue hissue => ?_
    · cases outcome with
      | absent => exact missingField_issuedAt hfieldPlace
      | ok value => exact hissues _ _ _ hgiven
      | failed => exact hissues _ _ _ hgiven
    · rwa [location_of_mem_deprecationIssues hissue]

theorem declaredFields_issuedAt {fields : Fields m} (hplace : location ∈ places)
    (hfields : ∀ field ∈ fields, field.2.1 ∈ places ∧ field.2.2.IssuesAt places) {path : Bytes}
    {declared : List Argument} {parts : Option Members × List Issue}
    (h : CanReturn (declaredFields schema location fields path declared) parts) :
    PartsIssuedAt places parts := by
  induction declared generalizing parts with
  | nil =>
    cases eq_of_canReturn_pure h
    exact .nil _
  | cons field rest ih =>
    obtain ⟨⟨outcome, issues⟩, hfield, h⟩ := canReturn_bind_imp' h
    obtain ⟨⟨members, later⟩, hlater, h⟩ := canReturn_bind_imp' h
    cases eq_of_canReturn_pure h
    refine .cons (declaredField_issuedAt hplace hfields hfield) (ih hlater) fun hnone => ?_
    cases outcome with
    | failed => exact .inl rfl
    | absent => exact .inr hnone
    | ok value =>
      cases members with
      | none => exact .inr rfl
      | some members => cases hnone

theorem object_settlesAt {fields : Fields m} (hplace : location ∈ places)
    (hfields : ∀ field ∈ fields, field.2.1 ∈ places ∧ field.2.2.IssuesAt places) :
    (object schema location fields).SettlesAt places := by
  refine single_settlesAt fun id path coerced h => ?_
  obtain ⟨body, _, h⟩ := canReturn_atBody h
  cases body with
  | scalar coerce =>
    cases eq_of_canReturn_pure h
    exact settledAt_invalid hplace
  | object _ =>
    cases eq_of_canReturn_pure h
    exact settledAt_invalid hplace
  | inputObject declared =>
    obtain ⟨⟨members, issues⟩, hparts, h⟩ := canReturn_bind_imp' h
    cases eq_of_canReturn_pure h
    have hunknown : ∀ issue ∈ unknownFields (schema.inputField? id) path fields,
        issue.location ∈ places := by
      intro issue hissue
      obtain ⟨field, hfield, rfl⟩ := List.mem_map.1 hissue
      exact (hfields field (List.mem_filter.1 hfield).1).1
    have hissued := (declaredFields_issuedAt hplace hfields hparts).with_issues hunknown
    refine hissued.settledAt ?_ ?_ <;> cases members <;> simp

end Coercion

/-! ## §4 Input -/

namespace Input

variable (schema : Schema m)

omit [LawfulMonad m] [LawfulMonadAttach m] in
mutual

/-- Issues with input are at its places, and input is settled unless it is a reference
without value. -/
theorem coerce_issuesAt [LawfulMonad m] [LawfulMonadAttach m] :
    ∀ input : Input, (input.coerce schema).IssuesAt input.places ∧
    ((∀ location, input ≠ .unbound location) → (input.coerce schema).SettlesAt input.places)
  | .unbound location => by
    refine ⟨fun type path coerced h => ?_, fun h => absurd rfl (h location)⟩
    cases eq_of_canReturn_pure h
    exact Coerced.issuedAt_absent
  | .null location => by
    have h : ((null location).coerce schema).SettlesAt (null location).places :=
      Coercion.null_settlesAt List.mem_cons_self
    exact ⟨h.issuesAt, fun _ => h⟩
  | .scalar location value => by
    have h : ((scalar location value).coerce schema).SettlesAt (scalar location value).places :=
      Coercion.scalar_settlesAt List.mem_cons_self value
    exact ⟨h.issuesAt, fun _ => h⟩
  | .list location items => by
    have h : ((list location items).coerce schema).SettlesAt (list location items).places := by
      unfold coerce
      refine Coercion.list_settlesAt List.mem_cons_self fun item hitem => ?_
      obtain ⟨hplace, hissues⟩ := coerceItems_issuesAt items item hitem
      exact ⟨List.mem_cons_of_mem _ hplace, hissues.mono fun _ => List.mem_cons_of_mem _⟩
    exact ⟨h.issuesAt, fun _ => h⟩
  | .object location fields => by
    have h : ((object location fields).coerce schema).SettlesAt
        (object location fields).places := by
      unfold coerce
      refine Coercion.object_settlesAt List.mem_cons_self fun field hfield => ?_
      obtain ⟨hplace, hissues⟩ := coerceFields_issuesAt fields field hfield
      exact ⟨List.mem_cons_of_mem _ hplace, hissues.mono fun _ => List.mem_cons_of_mem _⟩
    exact ⟨h.issuesAt, fun _ => h⟩

theorem coerceItems_issuesAt [LawfulMonad m] [LawfulMonadAttach m] :
    ∀ items : List Input, ∀ item ∈ coerceItems schema items,
    item.1 ∈ itemPlaces items ∧ item.2.IssuesAt (itemPlaces items)
  | [] => by simp [coerceItems]
  | input :: rest => by
    intro item hitem
    rw [coerceItems] at hitem
    rcases List.mem_cons.1 hitem with rfl | hrest
    · exact ⟨List.mem_append_left _ input.location_mem_places,
        (coerce_issuesAt input).1.mono fun _ => List.mem_append_left _⟩
    · obtain ⟨hplace, hissues⟩ := coerceItems_issuesAt rest item hrest
      exact ⟨List.mem_append_right _ hplace, hissues.mono fun _ => List.mem_append_right _⟩

theorem coerceFields_issuesAt [LawfulMonad m] [LawfulMonadAttach m] :
    ∀ fields : List (Bytes × Option Location × Input),
    ∀ field ∈ coerceFields schema fields,
    field.2.1 ∈ fieldPlaces fields ∧ field.2.2.IssuesAt (fieldPlaces fields)
  | [] => by simp [coerceFields]
  | (name, location, input) :: rest => by
    intro field hfield
    rw [coerceFields] at hfield
    rcases List.mem_cons.1 hfield with rfl | hrest
    · exact ⟨List.mem_cons_self, (coerce_issuesAt input).1.mono fun _ hplace =>
        List.mem_cons_of_mem _ (List.mem_append_left _ hplace)⟩
    · obtain ⟨hplace, hissues⟩ := coerceFields_issuesAt rest field hrest
      exact ⟨List.mem_append_right _ hplace, hissues.mono fun _ => List.mem_append_right _⟩

end

end Input

namespace Literal

variable {schema : Schema m} {bindings : Members} {literal : Literal} {type : TypeExpr TypeId}
  {path : Bytes} {coerced : Coerced}

/-- Issues with a literal point into it. -/
theorem issuedAt_of_coerce (h : CanReturn (literal.coerce schema bindings type path) coerced) :
    coerced.IssuedAt (literal.places.map some) := by
  rw [coerce_eq] at h
  exact ((Input.coerce_issuesAt schema _).1 _ _ _ h).mono
    (Input.places_ofLiteral bindings literal)

/-- A literal that is no reference to a variable is settled. -/
theorem settledAt_of_coerce (hreference : literal.isReference = false)
    (h : CanReturn (literal.coerce schema bindings type path) coerced) :
    coerced.SettledAt (literal.places.map some) := by
  have hissued := issuedAt_of_coerce h
  rw [coerce_eq] at h
  refine ⟨hissued, ((Input.coerce_issuesAt schema _).2 ?_ _ _ _ h).settled⟩
  cases literal with
  | reference _ _ => cases hreference
  | _ => simp [Input.ofLiteral]

end Literal

/-! ## §5 Arguments -/

/-- The node of the attempt is among the nodes, and issues are at their places. -/
structure ArgumentAttempt.PlacedIn (nodes : List (Entry Literal)) (attempt : ArgumentAttempt) :
    Prop where
  node : ∀ node ∈ attempt.node, node ∈ nodes
  issues : ∀ issue ∈ attempt.coerced.issues, ∃ place ∈ Literal.fieldPlaces nodes,
    issue.location = some place

theorem ArgumentAttempt.placedIn_of_make {schema : Schema m} {bindings : Members}
    {nodes : List (Entry Literal)} {argument : Argument} {attempt : ArgumentAttempt}
    (h : CanReturn (make schema bindings nodes argument) attempt) : attempt.PlacedIn nodes := by
  unfold make at h
  split at h
  · cases eq_of_canReturn_pure h
    exact ⟨nofun, nofun⟩
  · rename_i node hnode
    obtain ⟨coerced, hcoerced, h⟩ := canReturn_bind_imp' h
    cases eq_of_canReturn_pure h
    have hmem := List.mem_of_find?_eq_some hnode
    refine ⟨fun other hother => ?_, fun issue hissue => ?_⟩
    · cases hother
      exact hmem
    · obtain ⟨place, hplace, heq⟩ :=
        List.mem_map.1 ((Literal.issuedAt_of_coerce hcoerced).placed issue hissue)
      exact ⟨place, (Literal.mem_fieldPlaces hmem).2 place hplace, heq.symm⟩

/-- Every attempt is one at a declared argument. -/
theorem ArgumentAttempt.placedIn_of_mapM {schema : Schema m} {bindings : Members}
    {nodes : List (Entry Literal)} {declared : List Argument} {attempts : List ArgumentAttempt}
    (h : CanReturn (declared.mapM (make schema bindings nodes)) attempts) :
    ∀ attempt ∈ attempts, attempt.PlacedIn nodes := by
  induction declared generalizing attempts with
  | nil =>
    cases eq_of_canReturn_pure h
    simp
  | cons argument declared ih =>
    rw [List.mapM_cons] at h
    obtain ⟨first, hfirst, h⟩ := canReturn_bind_imp' h
    obtain ⟨others, hothers, h⟩ := canReturn_bind_imp' h
    cases eq_of_canReturn_pure h
    exact List.forall_mem_cons.2 ⟨placedIn_of_make hfirst, ih hothers⟩

/-- The record has the path, and it stands at one place of the field. -/
def ErrorRecord.PlacedIn (node : Field) (path : ResponsePath) (record : ErrorRecord) : Prop :=
  record.path = some path ∧ ∃ place ∈ node.places, record.locations = [place]

namespace ErrorRecord

variable {node : Field} {path : ResponsePath} {place : Location} {message : Message}

theorem placedIn_located (h : place ∈ node.places) :
    (located place path message).PlacedIn node path :=
  ⟨rfl, place, h, rfl⟩

theorem placedIn_own : (located node.location path message).PlacedIn node path :=
  placedIn_located List.mem_cons_self

theorem placedIn_entry {entry : Entry Literal} (h : entry ∈ node.arguments) :
    (located entry.location path message).PlacedIn node path :=
  placedIn_located (List.mem_cons_of_mem _ (Literal.mem_fieldPlaces h).1)

end ErrorRecord

namespace FieldSite

variable {schema : Schema m} {name : Bytes} {node : Field} {path : ResponsePath}
  {attempts : List ArgumentAttempt}

omit [Monad m] [LawfulMonad m] [MonadAttach m] [LawfulMonadAttach m] in
theorem place_mem_places {attempt : ArgumentAttempt} (h : attempt.PlacedIn node.arguments)
    {issue : Issue} (hissue : issue ∈ attempt.coerced.issues) :
    attempt.place issue node.location ∈ node.places := by
  obtain ⟨place, hplace, heq⟩ := h.issues issue hissue
  rw [ArgumentAttempt.place, heq]
  exact List.mem_cons_of_mem _ hplace

omit [Monad m] [LawfulMonad m] [MonadAttach m] [LawfulMonadAttach m] in
/-- Each record of a report stands at the field, at an argument or where an issue is. -/
theorem Finds.placedIn (hattempts : ∀ attempt ∈ attempts, attempt.PlacedIn node.arguments)
    {record : ErrorRecord}
    (h : Finds schema ⟨name, node.location, path⟩ attempts node.arguments record) :
    record.PlacedIn node path := by
  cases h with
  | missing => exact ErrorRecord.placedIn_own
  | malformed => exact ErrorRecord.placedIn_own
  | @missingArgument attempt hattempt =>
    unfold missingRecord
    cases hnode : attempt.node with
    | none => exact ErrorRecord.placedIn_own
    | some entry =>
      exact ErrorRecord.placedIn_entry ((hattempts attempt hattempt).node entry hnode)
  | deprecatedArgument hattempt hnode _ =>
    exact ErrorRecord.placedIn_entry ((hattempts _ hattempt).node _ hnode)
  | undeclared hentry => exact ErrorRecord.placedIn_entry hentry
  | failing hattempt hissue =>
    exact ErrorRecord.placedIn_located (place_mem_places (hattempts _ hattempt) hissue)
  | unknown hattempt hissue =>
    exact ErrorRecord.placedIn_located (place_mem_places (hattempts _ hattempt) hissue)
  | deprecated hattempt hissue _ =>
    exact ErrorRecord.placedIn_located (place_mem_places (hattempts _ hattempt) hissue)

end FieldSite

namespace ArgumentVerdict

variable {schema : Schema m} {bindings : Members} {field : FieldType m} {node : Field}
  {path : ResponsePath} {verdict : ArgumentVerdict}

/-- All records about arguments have the path of the field and stand at one of its places. -/
theorem placedIn (h : CanReturn (checkArguments schema bindings field node path) verdict) :
    ∀ record ∈ verdict.errors, record.PlacedIn node path := by
  obtain ⟨attempts, hattempts, h⟩ := canReturn_bind_imp' h
  cases eq_of_canReturn_pure h
  have hplaced := ArgumentAttempt.placedIn_of_mapM hattempts
  exact fun record hrecord =>
    (FieldSite.finds_of_mem_report _ _ _ _ _ hrecord).placedIn hplaced

/-- Arguments that keep a field from resolving have a record. -/
theorem errors_ne_nil (h : CanReturn (checkArguments schema bindings field node path) verdict)
    (hinvalid : verdict.valid = false) : verdict.errors ≠ [] := by
  obtain ⟨attempts, _, h⟩ := canReturn_bind_imp' h
  cases eq_of_canReturn_pure h
  intro hnone
  simp only [List.append_eq_nil_iff] at hnone
  obtain ⟨⟨⟨⟨hmissing, _⟩, hmalformed⟩, _⟩, _⟩ := hnone
  simp [hmissing, hmalformed] at hinvalid

end ArgumentVerdict

end GraphQL
