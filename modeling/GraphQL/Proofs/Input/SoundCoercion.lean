/-
GraphQL.Proofs.Input.SoundCoercion — what coercion gives conforms to the type.

  §1 Fit        — coerced input: a conforming value, nothing, or a failing issue.
  §2 Results    — what computations in the engine can give.
  §3 Wrappers   — lists and non-null types.
  §4 Objects    — the declared fields of an input object.
  §5 Input      — coercion of every input is sound.
  §6 Arguments  — the arguments of a field that may resolve.

A coercion is sound at every type and path at once, since its parts are
coerced at the parts of the type. The failing case is part of the statement:
an outcome without value always comes with an issue that says so, and this
is what makes the check for issues a check for values.
-/
import GraphQL.Proofs.Input.Conforms
import GraphQL.Proofs.Input.Tree

namespace GraphQL

open MonadAttach (CanReturn)
open LawfulMonadAttach (canReturn_bind_imp' eq_of_canReturn_pure)

/-! ## §1 Fit -/

/-- One of the issues says that the input fails. -/
def SomeFails (issues : List Issue) : Prop := ∃ issue ∈ issues, issue.failing = true

namespace SomeFails

variable {issues more : List Issue}

theorem append_left (h : SomeFails issues) : SomeFails (issues ++ more) := by
  obtain ⟨issue, hissue, hfailing⟩ := h
  exact ⟨issue, List.mem_append_left _ hissue, hfailing⟩

theorem append_right (h : SomeFails more) : SomeFails (issues ++ more) := by
  obtain ⟨issue, hissue, hfailing⟩ := h
  exact ⟨issue, List.mem_append_right _ hissue, hfailing⟩

end SomeFails

/-- Coerced input that is right about its type: its value conforms, and it
fails only with an issue that says so. -/
def Coerced.Fits (types : TypeId → Option InputBody) (type : TypeExpr TypeId)
    (coerced : Coerced) : Prop :=
  match coerced.outcome with
  | .ok value => Conforms types type value
  | .absent => True
  | .failed => SomeFails coerced.issues

namespace Coerced

variable {types : TypeId → Option InputBody} {type : TypeExpr TypeId} {coerced : Coerced}

/-- A failing issue fits every type. -/
theorem fits_fail {issue : Issue} (h : issue.failing = true) : (fail issue).Fits types type :=
  ⟨issue, List.mem_cons_self, h⟩

/-- What fits a type fits any other that takes its values. -/
theorem Fits.imp {other : TypeExpr TypeId} (h : coerced.Fits types type)
    (hvalues : ∀ value, Conforms types type value → Conforms types other value) :
    coerced.Fits types other := by
  unfold Fits at *
  cases houtcome : coerced.outcome with
  | ok value =>
    rw [houtcome] at h
    exact hvalues value h
  | absent => trivial
  | failed =>
    rw [houtcome] at h
    exact h

/-- What fits without null fits. -/
theorem Fits.of_nullable (h : coerced.Fits types (.nonNull type.nullable)) :
    coerced.Fits types type :=
  h.imp fun _ hvalue => hvalue.of_nullable

/-- Under a mark a type counts as what is read there. -/
theorem Fits.nonNull_of_unmarked (h : coerced.Fits types (.nonNull type.unmarked.nullable)) :
    coerced.Fits types (.nonNull type) :=
  h.imp fun _ hvalue => (type.nullable_unmarked ▸ hvalue).nonNull_of_unmarked

/-- What fits the element fits the list, as its only item. -/
theorem Fits.single (h : coerced.Fits types type) :
    (coerced.map fun value => .list [value]).Fits types (.nonNull (.list type)) := by
  unfold Fits map at *
  cases houtcome : coerced.outcome with
  | ok value =>
    rw [houtcome] at h
    exact .nonNull (by simp) (.list fun item hitem => by
      rw [List.mem_singleton] at hitem
      exact hitem ▸ h)
  | absent => simp [houtcome]
  | failed =>
    rw [houtcome] at h
    simpa [houtcome] using h

end Coerced

namespace Coercion

variable {m : Type → Type} {schema : Schema m} {types : TypeId → Option InputBody}
  {location : Option Location}

/-- Input that does not fit says so. -/
theorem fits_invalid {type expected : TypeExpr TypeId} {path : Bytes} :
    (invalid schema location type path).Fits types expected :=
  Coerced.fits_fail rfl

/-- A declared field is settled: its value conforms, and it is without value
only if it may be left out. -/
def Settles (types : TypeId → Option InputBody) (field : Argument) (coerced : Coerced) : Prop :=
  coerced.Fits types field.type ∧
    (coerced.outcome = .absent → field.type.isNonNull = false ∧ field.default = none)

/-- A field that is not given takes its default, or may be left out. -/
theorem missingField_settles {field : Argument} {path : Bytes}
    (hdefault : field.DefaultConforms types) :
    Settles types field (missingField schema field path location) := by
  unfold missingField
  cases hvalue : field.default with
  | some value => exact ⟨hdefault value hvalue, by simp [Coerced.ok]⟩
  | none =>
    by_cases hrequired : field.required = true
    · rw [if_pos hrequired]
      exact ⟨Coerced.fits_fail rfl, by simp [Coerced.fail]⟩
    · rw [if_neg hrequired]
      refine ⟨trivial, fun _ => ⟨?_, hvalue⟩⟩
      simpa [Argument.required, hvalue] using hrequired

/-- Issues that are added do not unsettle a field. -/
theorem Settles.with_issues {field : Argument} {coerced : Coerced} {notices : List Issue}
    (h : Settles types field coerced) :
    Settles types field { coerced with issues := notices ++ coerced.issues } := by
  obtain ⟨outcome, issues⟩ := coerced
  obtain ⟨hfits, habsent⟩ := h
  refine ⟨?_, habsent⟩
  cases outcome with
  | ok value => exact hfits
  | absent => trivial
  | failed => exact hfits.append_right

end Coercion

/-- An attempt that neither misses a value nor fails takes a conforming value,
or is about an argument that may be left out. -/
theorem ArgumentAttempt.value?_of_clean {types : TypeId → Option InputBody}
    {attempt : ArgumentAttempt}
    (hdefault : attempt.argument.DefaultConforms types)
    (hfits : attempt.coerced.Fits types attempt.argument.type)
    (hmissing : attempt.isMissing = false) (hfailures : attempt.failures = []) :
    (∃ value, attempt.value? = some value ∧ Conforms types attempt.argument.type value) ∨
      (attempt.value? = none ∧ attempt.argument.type.isNonNull = false ∧
        attempt.argument.default = none) := by
  unfold Coerced.Fits at hfits
  unfold isMissing at hmissing
  unfold value?
  cases houtcome : attempt.coerced.outcome with
  | ok value =>
    rw [houtcome] at hfits
    exact .inl ⟨value, rfl, hfits⟩
  | absent =>
    cases hvalue : attempt.argument.default with
    | some value => exact .inl ⟨value, rfl, hdefault value hvalue⟩
    | none =>
      rw [houtcome] at hmissing
      exact .inr ⟨rfl, by simpa [Argument.required, hvalue] using hmissing, rfl⟩
  | failed =>
    rw [houtcome] at hfits
    obtain ⟨issue, hissue, hfailing⟩ := hfits
    have hmem : issue ∈ attempt.failures := List.mem_filter.2 ⟨hissue, hfailing⟩
    simp [hfailures] at hmem

/-- Attempts that are not reported as missing or malformed neither miss a
value nor fail. -/
theorem clean_of_reports {m : Type → Type} {schema : Schema m} {site : FieldSite}
    {attempts : List ArgumentAttempt}
    (hmissing : (site.missingReport schema attempts).isEmpty = true)
    (hmalformed : (site.malformedReport attempts).isEmpty = true) :
    ∀ attempt ∈ attempts, attempt.isMissing = false ∧ attempt.failures = [] := by
  have hnone : attempts.filter (·.isMissing) = [] := by
    unfold FieldSite.missingReport at hmissing
    cases hfilter : attempts.filter (·.isMissing) with
    | nil => rfl
    | cons _ _ => simp [hfilter] at hmissing
  have hnever : attempts.filter (fun attempt => !attempt.failures.isEmpty) = [] := by
    unfold FieldSite.malformedReport at hmalformed
    cases hfilter : attempts.filter (fun attempt => !attempt.failures.isEmpty) with
    | nil => rfl
    | cons _ _ => simp [hfilter] at hmalformed
  intro attempt hmem
  have hmiss := List.filter_eq_nil_iff.1 hnone attempt hmem
  have hfail := List.filter_eq_nil_iff.1 hnever attempt hmem
  exact ⟨by simpa using hmiss, by simpa using hfail⟩

/-! ## §2 Results -/

variable {m : Type → Type} [Monad m] [LawfulMonad m] [MonadAttach m] [LawfulMonadAttach m]

/-- What is aborted gives nothing. -/
theorem not_canReturn_throw {α : Type} {fault : Fault} {a : α} :
    ¬ CanReturn (throw fault : Engine m α) a := by
  intro h
  have heq : Except.error fault = Except.ok a := eq_of_canReturn_pure (m := m) h
  cases heq

/-- A coercion whose results are right about every type that they are given. -/
def Coercion.Sound (types : TypeId → Option InputBody) (coercion : Coercion m) : Prop :=
  ∀ type path coerced, CanReturn (coercion type path) coerced → coerced.Fits types type

/-! ## §3 Wrappers -/

namespace Coercion

variable {schema : Schema m} {types : TypeId → Option InputBody} {location : Option Location}

/-- Null is given only where it is admitted. -/
theorem null_sound : Sound types (null schema location) := by
  intro type path coerced h
  unfold null at h
  rw [← eq_of_canReturn_pure h]
  split
  · exact fits_invalid
  · rename_i hnull
    exact .null (by simpa using hnull)

/-- Input that is no list fits under every wrapper, and is never null, if it
is so at every named type. -/
theorem fits_single {atName : TypeId → Bytes → Engine m Coerced}
    (hname : ∀ id path coerced, CanReturn (atName id path) coerced →
      coerced.Fits types (.nonNull (.named id)))
    {type : TypeExpr TypeId} {path : Bytes} {coerced : Coerced}
    (h : CanReturn (single atName type path) coerced) :
    coerced.Fits types (.nonNull type.nullable) := by
  -- Null is ruled out below every wrapper, as a non-null type may stand there.
  induction type using TypeExpr.reading generalizing coerced with
  | named id => exact hname id path coerced h
  | nonNull inner ih =>
    rw [single_nonNull] at h
    exact (ih h).nonNull_of_unmarked
  | list element ih =>
    unfold single at h
    obtain ⟨item, hitem, h⟩ := canReturn_bind_imp' h
    rw [← eq_of_canReturn_pure h]
    exact (ih hitem).of_nullable.single

/-- Null is settled at once. -/
theorem outcome_null_ne_absent {type : TypeExpr TypeId} {path : Bytes} {coerced : Coerced}
    (h : CanReturn (null schema location type path) coerced) : coerced.outcome ≠ .absent := by
  unfold null at h
  rw [← eq_of_canReturn_pure h]
  split <;> simp [invalid, Coerced.fail, Coerced.ok]

/-- An item of a list, null where it has no value. -/
theorem canReturn_listItems_cons {element : TypeExpr TypeId} {path : Bytes} {index : Nat}
    {item : Option Location × Coercion m} {rest : List (Option Location × Coercion m)}
    {result : Option (List Value) × List Issue} (hitem : Sound types item.2)
    (h : CanReturn (listItems schema element path index (item :: rest)) result) :
    ∃ (coerced : Coerced) (others : Option (List Value) × List Issue),
      coerced.Fits types element ∧ coerced.outcome ≠ .absent ∧
      CanReturn (listItems schema element path (index + 1) rest) others ∧
      result = (match coerced.outcome, others.1 with
        | .ok value, some values => some (value :: values)
        | _, _ => none, coerced.issues ++ others.2) := by
  unfold listItems at h
  obtain ⟨given, hgiven, h⟩ := canReturn_bind_imp' h
  have hfits := hitem _ _ _ hgiven
  -- What has no value is coerced once more, as null; all else stays as it is.
  cases houtcome : given.outcome with
  | absent =>
    rw [houtcome] at h
    obtain ⟨coerced, hnull, h⟩ := canReturn_bind_imp' h
    obtain ⟨others, hothers, h⟩ := canReturn_bind_imp' h
    exact ⟨coerced, others, null_sound _ _ _ hnull, outcome_null_ne_absent hnull, hothers,
      (eq_of_canReturn_pure h).symm⟩
  | _ =>
    rw [houtcome] at h
    simp only [pure_bind] at h
    obtain ⟨others, hothers, h⟩ := canReturn_bind_imp' h
    exact ⟨given, others, hfits, by simp [houtcome], hothers, (eq_of_canReturn_pure h).symm⟩

/-- What a part of the input has given so far: conforming values, or an issue
that says why there are none. -/
def PartsFit {α : Type} (conforms : α → Prop) (parts : Option α × List Issue) : Prop :=
  match parts.1 with
  | some values => conforms values
  | none => SomeFails parts.2

/-- The items of a list conform to the element type, or one of them says that
it does not. -/
theorem listItems_sound {element : TypeExpr TypeId} {path : Bytes} {index : Nat}
    {items : List (Option Location × Coercion m)} (hitems : ∀ item ∈ items, Sound types item.2)
    {result : Option (List Value) × List Issue}
    (h : CanReturn (listItems schema element path index items) result) :
    PartsFit (fun values => ∀ value ∈ values, Conforms types element value) result := by
  induction items generalizing index result with
  | nil =>
    rw [← eq_of_canReturn_pure h]
    simp [PartsFit]
  | cons item rest ih =>
    obtain ⟨coerced, others, hfits, habsent, hothers, heq⟩ :=
      canReturn_listItems_cons (hitems item List.mem_cons_self) h
    have hrest := ih (fun item hitem => hitems item (List.mem_cons_of_mem _ hitem)) hothers
    rw [heq]
    obtain ⟨outcome, issues⟩ := coerced
    obtain ⟨values, later⟩ := others
    cases outcome with
    | absent => simp at habsent
    | failed =>
      exact hfits.append_left
    | ok value =>
      cases values with
      | none =>
        exact hrest.append_right
      | some values =>
        intro item hitem
        rcases List.mem_cons.1 hitem with heq | hitem
        · exact heq ▸ hfits
        · exact hrest item hitem

/-- Input at a named type meets what the type consists of. -/
theorem canReturn_atBody {id : TypeId} {fit : TypeBody m → Engine m Coerced} {coerced : Coerced}
    (h : CanReturn (atBody schema id fit) coerced) :
    ∃ body, schema.body? id = some body ∧ CanReturn (fit body) coerced := by
  unfold atBody at h
  cases hbody : schema.body? id with
  | none =>
    rw [hbody] at h
    exact absurd h not_canReturn_throw
  | some body =>
    rw [hbody] at h
    exact ⟨body, rfl, h⟩

/-- A list whose items are sound fits list types, and is never null. -/
theorem fits_list {items : List (Option Location × Coercion m)}
    (hitems : ∀ item ∈ items, Sound types item.2) {type : TypeExpr TypeId} {path : Bytes}
    {coerced : Coerced} (h : CanReturn (list schema location items type path) coerced) :
    coerced.Fits types (.nonNull type.nullable) := by
  induction type using TypeExpr.reading generalizing coerced with
  | named id =>
    obtain ⟨body, _, h⟩ := canReturn_atBody h
    rw [← eq_of_canReturn_pure h]
    exact fits_invalid
  | nonNull inner ih =>
    rw [list_nonNull] at h
    exact (ih h).nonNull_of_unmarked
  | list element ih =>
    unfold list at h
    obtain ⟨⟨values, issues⟩, hparts, h⟩ := canReturn_bind_imp' h
    have hfit := listItems_sound hitems hparts
    rw [← eq_of_canReturn_pure h]
    cases values with
    | none => exact hfit
    | some values => exact .nonNull (by simp) (.list hfit)

/-! ## §4 Objects -/

/-- Every declared field is settled, by what is given for it or without that. -/
theorem declaredField_settles {fields : Fields m}
    (hfields : ∀ entry ∈ fields, Sound types entry.2.2) {path : Bytes} {field : Argument}
    (hdefault : field.DefaultConforms types) {coerced : Coerced}
    (h : CanReturn (declaredField schema location fields path field) coerced) :
    Settles types field coerced := by
  unfold declaredField at h
  cases hlookup : fields.lookup field.name with
  | none =>
    rw [hlookup] at h
    rw [← eq_of_canReturn_pure h]
    exact missingField_settles hdefault
  | some entry =>
    obtain ⟨fieldLocation, coercion⟩ := entry
    rw [hlookup] at h
    obtain ⟨given, hgiven, h⟩ := canReturn_bind_imp' h
    obtain ⟨before, after, hsplit, _⟩ := List.lookup_eq_some_iff.1 hlookup
    have hfits := hfields (field.name, fieldLocation, coercion) (by simp [hsplit]) _ _ _ hgiven
    rw [← eq_of_canReturn_pure h]
    apply Settles.with_issues
    cases houtcome : given.outcome with
    | absent => exact missingField_settles hdefault
    | ok value => exact ⟨hfits, by simp [houtcome]⟩
    | failed => exact ⟨hfits, by simp [houtcome]⟩

/-- The members of an object conform to the declared fields, or one of these
says that they do not. -/
theorem declaredFields_sound {fields : Fields m}
    (hfields : ∀ entry ∈ fields, Sound types entry.2.2) {path : Bytes} {declared : List Argument}
    (hdefaults : ∀ field ∈ declared, field.DefaultConforms types)
    {result : Option Members × List Issue}
    (h : CanReturn (declaredFields schema location fields path declared) result) :
    PartsFit (MembersConform types declared) result := by
  induction declared generalizing result with
  | nil =>
    rw [← eq_of_canReturn_pure h]
    exact .nil
  | cons field rest ih =>
    unfold declaredFields at h
    obtain ⟨⟨outcome, issues⟩, hfield, h⟩ := canReturn_bind_imp' h
    obtain ⟨⟨members, later⟩, hothers, h⟩ := canReturn_bind_imp' h
    have hrest := ih (fun field hmem => hdefaults field (List.mem_cons_of_mem _ hmem)) hothers
    obtain ⟨hfits, habsent⟩ :=
      declaredField_settles hfields (hdefaults field List.mem_cons_self) hfield
    rw [← eq_of_canReturn_pure h]
    cases members with
    | none =>
      cases outcome <;> exact hrest.append_right
    | some members =>
      cases outcome with
      | ok value => exact .present hfits hrest
      | absent =>
        obtain ⟨hnull, hdefault⟩ := habsent rfl
        exact .absent hnull hdefault hrest
      | failed =>
        exact hfits.append_left

/-- An object whose fields are sound fits input object types. -/
theorem fits_object {fields : Fields m} (hschema : schema.Trusted)
    (hfields : ∀ entry ∈ fields, Sound schema.inputBody? entry.2.2) {type : TypeExpr TypeId}
    {path : Bytes} {coerced : Coerced}
    (h : CanReturn (object schema location fields type path) coerced) :
    coerced.Fits schema.inputBody? (.nonNull type.nullable) := by
  refine fits_single ?_ h
  intro id path coerced h
  obtain ⟨body, hbody, h⟩ := canReturn_atBody h
  cases body with
  | scalar coerce =>
    rw [← eq_of_canReturn_pure h]
    exact fits_invalid
  | object _ =>
    rw [← eq_of_canReturn_pure h]
    exact fits_invalid
  | inputObject declared =>
    obtain ⟨⟨members, issues⟩, hparts, h⟩ := canReturn_bind_imp' h
    have hfit := declaredFields_sound hfields (hschema.body hbody) hparts
    rw [← eq_of_canReturn_pure h]
    cases members with
    | none =>
      exact hfit.append_right
    | some members =>
      have htype : schema.inputBody? id = some (.inputObject declared) := by
        simp [Schema.inputBody?, hbody]
      exact .nonNull (by simp) (.object htype hfit)

/-- A scalar fits scalar types, as what their coercion function gives for it. -/
theorem fits_scalar (hschema : schema.Trusted) {value : Value} {type : TypeExpr TypeId}
    {path : Bytes} {coerced : Coerced}
    (h : CanReturn (scalar schema location value type path) coerced) :
    coerced.Fits schema.inputBody? (.nonNull type.nullable) := by
  refine fits_single ?_ h
  intro id path coerced h
  obtain ⟨body, hbody, h⟩ := canReturn_atBody h
  cases body with
  | inputObject declared =>
    rw [← eq_of_canReturn_pure h]
    exact fits_invalid
  | object _ => exact absurd h not_canReturn_throw
  | scalar coerce =>
    obtain ⟨result, hresult, h⟩ := canReturn_bind_imp' h
    cases result with
    | none =>
      rw [← eq_of_canReturn_pure h]
      exact fits_invalid
    | some result =>
      rw [← eq_of_canReturn_pure h]
      have hgives : coerce.Gives result := ⟨value, hresult⟩
      have hne : result ≠ .null := by
        intro hnull
        exact hschema.body hbody (hnull ▸ hgives)
      have htype : schema.inputBody? id = some (.scalar coerce.Gives) := by
        simp [Schema.inputBody?, hbody]
      exact .nonNull hne (.scalar htype hgives)

end Coercion

/-! ## §5 Input -/

namespace Input

variable {schema : Schema m}

omit [LawfulMonad m] [LawfulMonadAttach m] in
mutual

/-- The coercion of input is sound. -/
theorem coerce_sound [LawfulMonad m] [LawfulMonadAttach m]
    (hschema : schema.Trusted) : ∀ input : Input,
    (input.coerce schema).Sound schema.inputBody?
  | .unbound _ => by
    intro type path coerced h
    unfold coerce at h
    rw [← eq_of_canReturn_pure h]
    trivial
  | .null location => by
    unfold coerce
    exact Coercion.null_sound
  | .scalar location value => by
    intro type path coerced h
    unfold coerce at h
    exact (Coercion.fits_scalar hschema h).of_nullable
  | .list location items => by
    intro type path coerced h
    unfold coerce at h
    exact (Coercion.fits_list (coerceItems_sound hschema items) h).of_nullable
  | .object location fields => by
    intro type path coerced h
    unfold coerce at h
    exact (Coercion.fits_object hschema (coerceFields_sound hschema fields) h).of_nullable

/-- The coercions of the items of a list are sound. -/
theorem coerceItems_sound [LawfulMonad m] [LawfulMonadAttach m]
    (hschema : schema.Trusted) : ∀ items : List Input,
    ∀ item ∈ coerceItems schema items, item.2.Sound schema.inputBody?
  | [] => by simp [coerceItems]
  | input :: rest => by
    intro item hitem
    unfold coerceItems at hitem
    rcases List.mem_cons.1 hitem with heq | hrest
    · rw [heq]
      exact coerce_sound hschema input
    · exact coerceItems_sound hschema rest item hrest

/-- The coercions of the fields of an object are sound. -/
theorem coerceFields_sound [LawfulMonad m] [LawfulMonadAttach m] (hschema : schema.Trusted) :
    ∀ fields : List (Bytes × Option Location × Input),
    ∀ field ∈ coerceFields schema fields, field.2.2.Sound schema.inputBody?
  | [] => by simp [coerceFields]
  | (name, location, input) :: rest => by
    intro field hfield
    unfold coerceFields at hfield
    rcases List.mem_cons.1 hfield with heq | hrest
    · rw [heq]
      exact coerce_sound hschema input
    · exact coerceFields_sound hschema rest field hrest

end

end Input

/-! ## §6 Arguments -/

namespace ArgumentAttempt

variable {schema : Schema m} {bindings : Members} {nodes : List (Entry Literal)}

/-- An attempt is about its argument, and right about the argument's type. -/
theorem fits_of_make (hschema : schema.Trusted) {argument : Argument} {attempt : ArgumentAttempt}
    (h : CanReturn (make schema bindings nodes argument) attempt) :
    attempt.argument = argument ∧
      attempt.coerced.Fits schema.inputBody? argument.type := by
  unfold make at h
  cases hnode : nodes.find? (·.name == argument.name) with
  | none =>
    rw [hnode] at h
    rw [← eq_of_canReturn_pure h]
    exact ⟨rfl, trivial⟩
  | some node =>
    rw [hnode] at h
    obtain ⟨coerced, hcoerced, h⟩ := canReturn_bind_imp' h
    rw [Literal.coerce_eq] at hcoerced
    rw [← eq_of_canReturn_pure h]
    exact ⟨rfl, Input.coerce_sound hschema _ _ _ _ hcoerced⟩

end ArgumentAttempt

/-- Attempts that neither miss a value nor fail give conforming arguments. -/
theorem argumentValues_conform {schema : Schema m} {bindings : Members}
    {nodes : List (Entry Literal)} (hschema : schema.Trusted) {declared : List Argument}
    (hdefaults : ∀ argument ∈ declared, argument.DefaultConforms schema.inputBody?)
    {attempts : List ArgumentAttempt}
    (h : CanReturn (declared.mapM (ArgumentAttempt.make schema bindings nodes)) attempts)
    (hclean : ∀ attempt ∈ attempts, attempt.isMissing = false ∧ attempt.failures = []) :
    MembersConform schema.inputBody? declared (argumentValues attempts) := by
  induction declared generalizing attempts with
  | nil =>
    rw [List.mapM_nil] at h
    rw [← eq_of_canReturn_pure h]
    exact .nil
  | cons argument declared ih =>
    rw [List.mapM_cons] at h
    obtain ⟨attempt, hattempt, h⟩ := canReturn_bind_imp' h
    obtain ⟨rest, hrest, h⟩ := canReturn_bind_imp' h
    have heq := eq_of_canReturn_pure h
    subst heq
    have hothers := ih (fun other hmem => hdefaults other (List.mem_cons_of_mem _ hmem)) hrest
      (fun other hmem => hclean other (List.mem_cons_of_mem _ hmem))
    obtain ⟨rfl, hfits⟩ := ArgumentAttempt.fits_of_make hschema hattempt
    obtain ⟨hmissing, hfailures⟩ := hclean attempt List.mem_cons_self
    have hdefault := hdefaults attempt.argument List.mem_cons_self
    rcases ArgumentAttempt.value?_of_clean hdefault hfits hmissing hfailures with
      ⟨value, hvalue, hconforms⟩ | ⟨hvalue, hnull, hnone⟩
    · rw [show argumentValues (attempt :: rest) =
        (attempt.argument.name, value) :: argumentValues rest by simp [argumentValues, hvalue]]
      exact .present hconforms hothers
    · rw [show argumentValues (attempt :: rest) = argumentValues rest by
        simp [argumentValues, hvalue]]
      exact .absent hnull hnone hothers

/-- The arguments of a field that may resolve conform to their declarations. -/
theorem checkArguments_sound {schema : Schema m} (hschema : schema.Trusted) {bindings : Members}
    {field : FieldType m}
    (hdefaults : ∀ argument ∈ field.arguments, argument.DefaultConforms schema.inputBody?)
    {node : Field} {path : ResponsePath} {verdict : ArgumentVerdict}
    (h : CanReturn (checkArguments schema bindings field node path) verdict)
    (hvalid : verdict.valid = true) :
    MembersConform schema.inputBody? field.arguments verdict.values := by
  unfold checkArguments at h
  obtain ⟨attempts, hattempts, h⟩ := canReturn_bind_imp' h
  have heq := eq_of_canReturn_pure h
  subst heq
  simp only [Bool.and_eq_true] at hvalid
  obtain ⟨hmissing, hmalformed⟩ := hvalid
  exact argumentValues_conform hschema hdefaults hattempts (clean_of_reports hmissing hmalformed)

end GraphQL
