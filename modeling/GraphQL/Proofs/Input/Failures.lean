/-
GraphQL.Proofs.Input.Failures — what fails in a coercion, and where.

  §1 Paths      — a path and the segments below it tell each other.
  §2 Places     — failing issues at places that differ.
  §3 Parts      — items fail below their index, members below their name.
  §4 Coercions  — outcomes, issues and paths of literals and of values.

A failure is noted where it is met and nowhere else, so the paths of failing
issues differ. A path is a text; what keeps apart the paths of different parts is
that neither an index nor a name has a point in it.
-/
import GraphQL.Proofs.Execution.Returns
import GraphQL.Proofs.Grammar.Printed
import GraphQL.Proofs.Input.Verdict
import GraphQL.Proofs.Schema.Defaults
import GraphQL.Proofs.Value.Equality
import Mathlib.Tactic.IntervalCases

namespace GraphQL

open MonadAttach (CanReturn)

/-! ## §1 Paths -/

/-- A part of a path: the name of a field, or the index of an item. -/
def IsSegment (segment : Bytes) : Prop := segment ≠ [] ∧ ascii '.' ∉ segment

/-- The path of the part that segments lead to, one after another. -/
def pathAt (path : Bytes) (segments : List Bytes) : Bytes := segments.foldl partPath path

/-- The path itself, or one that goes on from it. -/
def IsWithin (path extended : Bytes) : Prop :=
  extended = path ∨ ∃ rest, rest ≠ [] ∧ extended = partPath path rest

theorem isSegment_of_isName {name : Bytes} (h : isName name = true) : IsSegment name := by
  constructor
  · rintro rfl
    cases h
  · intro hpoint
    cases name with
    | nil => cases h
    | cons first rest =>
      simp only [isName, Bool.and_eq_true, List.all_eq_true] at h
      rcases List.mem_cons.1 hpoint with rfl | hpoint
      · exact absurd h.1 (by decide)
      · exact absurd (h.2 _ hpoint) (by decide)

theorem isSegment_decimal (n : Nat) : IsSegment (decimal n) := by
  obtain ⟨hne, hdigits⟩ := isDigits_decimal n
  exact ⟨hne, fun hpoint => absurd (hdigits _ hpoint) (by decide)⟩

theorem decimal_injective {i j : Nat} (h : decimal i = decimal j) : i = j := by
  rw [← digitsValue_decimal i, h, digitsValue_decimal]

theorem partPath_injective {parent child other : Bytes}
    (h : partPath parent child = partPath parent other) : child = other := by
  unfold partPath at h
  split at h
  · exact h
  · exact (List.cons_eq_cons.1 (List.append_cancel_left h)).2

theorem partPath_ne_self {parent child : Bytes} (hchild : child ≠ []) :
    partPath parent child ≠ parent := by
  unfold partPath
  split
  · rename_i hparent
    rwa [List.isEmpty_iff.1 hparent]
  · simp

theorem partPath_partPath {parent middle child : Bytes} (hmiddle : middle ≠ []) :
    partPath (partPath parent middle) child = partPath parent (partPath middle child) := by
  cases parent <;> cases middle <;> simp_all [partPath]

theorem intercalate_point {segment next : Bytes} {rest : List Bytes} (hsegment : segment ≠ []) :
    [ascii '.'].intercalate (segment :: next :: rest) =
      partPath segment ([ascii '.'].intercalate (next :: rest)) := by
  cases segment with
  | nil => exact absurd rfl hsegment
  | cons => simp [partPath]

/-- Segments below a path are one text after it, with points between them. -/
theorem pathAt_eq {path segment : Bytes} {segments : List Bytes} (hsegment : IsSegment segment)
    (hsegments : ∀ s ∈ segments, IsSegment s) :
    pathAt path (segment :: segments) =
      partPath path ([ascii '.'].intercalate (segment :: segments)) := by
  induction segments generalizing path segment with
  | nil => simp [pathAt]
  | cons next rest ih =>
    obtain ⟨hnext, hrest⟩ := List.forall_mem_cons.1 hsegments
    rw [intercalate_point hsegment.1, ← partPath_partPath hsegment.1]
    exact ih hnext hrest

theorem intercalate_ne_nil {segment : Bytes} {segments : List Bytes} (h : segment ≠ []) :
    [ascii '.'].intercalate (segment :: segments) ≠ [] := by
  cases segment with
  | nil => exact absurd rfl h
  | cons => cases segments <;> simp

/-- Different segments lead to different paths. -/
theorem pathAt_injective {path : Bytes} {segments others : List Bytes}
    (hsegments : ∀ s ∈ segments, IsSegment s) (hothers : ∀ s ∈ others, IsSegment s)
    (h : pathAt path segments = pathAt path others) : segments = others := by
  cases segments with
  | nil =>
    cases others with
    | nil => rfl
    | cons other others =>
      obtain ⟨hother, hrest⟩ := List.forall_mem_cons.1 hothers
      rw [pathAt_eq hother hrest] at h
      exact absurd h.symm (partPath_ne_self (intercalate_ne_nil hother.1))
  | cons segment segments =>
    obtain ⟨hsegment, hlater⟩ := List.forall_mem_cons.1 hsegments
    cases others with
    | nil =>
      rw [pathAt_eq hsegment hlater] at h
      exact absurd h (partPath_ne_self (intercalate_ne_nil hsegment.1))
    | cons other others =>
      obtain ⟨hother, hrest⟩ := List.forall_mem_cons.1 hothers
      rw [pathAt_eq hsegment hlater, pathAt_eq hother hrest] at h
      -- Segments have no points, so a text that is split at points gives them back.
      rw [← List.splitOn_intercalate (ascii '.') (fun s hs => (hsegments s hs).2) (by simp),
        partPath_injective h,
        List.splitOn_intercalate (ascii '.') (fun s hs => (hothers s hs).2) (by simp)]

theorem isWithin_pathAt {path : Bytes} {segments : List Bytes}
    (hsegments : ∀ s ∈ segments, IsSegment s) : IsWithin path (pathAt path segments) := by
  cases segments with
  | nil => exact .inl rfl
  | cons segment segments =>
    obtain ⟨hsegment, hlater⟩ := List.forall_mem_cons.1 hsegments
    exact .inr ⟨_, intercalate_ne_nil hsegment.1, pathAt_eq hsegment hlater⟩

/-! ## §2 Places -/

/-- The failing issues are at places below the path that differ, each of them allowed. -/
def FailsAt (path : Bytes) (allowed : List Bytes → Prop) (issues : List Issue) : Prop :=
  ∃ places : List (List Bytes), places.Nodup ∧
    (∀ place ∈ places, allowed place ∧ ∀ segment ∈ place, IsSegment segment) ∧
    (issues.filter Issue.failing).map (·.path) = places.map (pathAt path)

namespace FailsAt

variable {path : Bytes} {allowed other : List Bytes → Prop} {issues more : List Issue}

/-- Issues that do not fail are at no place. -/
theorem of_forall (h : ∀ issue ∈ issues, issue.failing = false) : FailsAt path allowed issues := by
  refine ⟨[], .nil, by simp, ?_⟩
  rw [List.filter_eq_nil_iff.2 fun issue hissue => by simp [h issue hissue]]
  rfl

theorem nil : FailsAt path allowed [] := of_forall (by simp)

theorem append_left {own : List Issue} (hown : ∀ issue ∈ own, issue.failing = false)
    (h : FailsAt path allowed issues) : FailsAt path allowed (own ++ issues) := by
  obtain ⟨places, hnodup, hplaces, hpaths⟩ := h
  refine ⟨places, hnodup, hplaces, ?_⟩
  rw [List.filter_append, List.filter_eq_nil_iff.2 fun issue hissue => by simp [hown issue hissue],
    List.nil_append, hpaths]

/-- An issue about the whole is at the path itself. -/
theorem singleton {issue : Issue} (hpath : issue.path = path) (hallowed : allowed []) :
    FailsAt path allowed [issue] := by
  by_cases hfailing : issue.failing = true
  · exact ⟨[[]], List.nodup_singleton _, by simpa using hallowed, by simp [hfailing, hpath, pathAt]⟩
  · exact of_forall (by simpa using hfailing)

theorem mono (h : FailsAt path allowed issues) (himp : ∀ place, allowed place → other place) :
    FailsAt path other issues := by
  obtain ⟨places, hnodup, hplaces, hpaths⟩ := h
  exact ⟨places, hnodup, fun place hplace =>
    ⟨himp place (hplaces place hplace).1, (hplaces place hplace).2⟩, hpaths⟩

/-- What fails in one part and what fails in another is at places that differ. -/
theorem append (h : FailsAt path allowed issues) (hmore : FailsAt path other more)
    (hdisjoint : ∀ place, allowed place → ¬ other place) :
    FailsAt path (fun place => allowed place ∨ other place) (issues ++ more) := by
  obtain ⟨places, hnodup, hplaces, hpaths⟩ := h
  obtain ⟨later, hnodup', hlater, hpaths'⟩ := hmore
  refine ⟨places ++ later, ?_, List.forall_mem_append.2 ⟨?_, ?_⟩, ?_⟩
  · rw [List.nodup_append']
    exact ⟨hnodup, hnodup', fun place hplace hplace' =>
      hdisjoint place (hplaces place hplace).1 (hlater place hplace').1⟩
  · exact fun place hplace => ⟨.inl (hplaces place hplace).1, (hplaces place hplace).2⟩
  · exact fun place hplace => ⟨.inr (hlater place hplace).1, (hlater place hplace).2⟩
  · rw [List.filter_append, List.map_append, List.map_append, hpaths, hpaths']

/-- What fails in a part is below the segment that leads to it. -/
theorem below {segment : Bytes} (hsegment : IsSegment segment)
    (h : FailsAt (partPath path segment) allowed issues) :
    FailsAt path (fun place => place.head? = some segment) issues := by
  obtain ⟨places, hnodup, hplaces, hpaths⟩ := h
  refine ⟨places.map (segment :: ·), hnodup.map (List.cons_injective), ?_, ?_⟩
  · refine List.forall_mem_map.2 fun place hplace => ⟨rfl, ?_⟩
    exact List.forall_mem_cons.2 ⟨hsegment, (hplaces place hplace).2⟩
  · rw [hpaths, List.map_map]
    rfl

/-- Places that differ have paths that differ, and all are within the path. -/
theorem paths (h : FailsAt path allowed issues) :
    ((issues.filter Issue.failing).map (·.path)).Nodup ∧
      ∀ issue ∈ issues, issue.failing = true → IsWithin path issue.path := by
  obtain ⟨places, hnodup, hplaces, hpaths⟩ := h
  constructor
  · rw [hpaths, List.nodup_map_iff_inj_on hnodup]
    intro place hplace other hother heq
    exact pathAt_injective (hplaces place hplace).2 (hplaces other hother).2 heq
  · intro issue hissue hfailing
    have hmem : issue.path ∈ (issues.filter Issue.failing).map (·.path) :=
      List.mem_map_of_mem (List.mem_filter.2 ⟨hissue, hfailing⟩)
    rw [hpaths] at hmem
    obtain ⟨place, hplace, heq⟩ := List.mem_map.1 hmem
    rw [← heq]
    exact isWithin_pathAt (hplaces place hplace).2

end FailsAt

/-! ## §3 Parts -/

section Parts

variable {m : Type → Type} [Monad m] [MonadAttach m] {schema : Schema m}

/-- What fails in an item is below the index of the item, and what fails in a member below
the name of the field: names of fields differ and have no points. -/
theorem Coercion.invariant_failsAt (hdistinct : schema.DistinctFields)
    (hnames : ∀ field, schema.Declares field → isName field.name = true) :
    Coercion.Invariant schema (fun _ => True) (fun _ => True)
      (fun path coerced => FailsAt path (fun _ => True) coerced.issues)
      (fun path index parts =>
        FailsAt path (fun place => ∃ i ≥ index, place.head? = some (decimal i)) parts.2)
      (fun path declared parts => (declared.map (·.name)).Nodup →
        FailsAt path (fun place => ∃ field ∈ declared, place.head? = some field.name) parts.2) where
  unbound _ := .nil
  nullValue _ := .nil
  misfit _ _ _ := .singleton rfl trivial
  scalarValue _ _ _ _ := .nil
  wrapped {path coerced} h := by
    unfold Coerced.map
    cases coerced.outcome <;> exact h
  noItems _ _ := .nil
  item {path index coerced parts} hfirst _ hparts := by
    refine (FailsAt.append (hfirst.below (isSegment_decimal index)) hparts ?_).mono ?_
    · rintro place hplace ⟨i, hi, hother⟩
      have := decimal_injective (Option.some.inj (hplace.symm.trans hother))
      omega
    · rintro place (hplace | ⟨i, hi, hplace⟩)
      · exact ⟨index, Nat.le_refl index, hplace⟩
      · exact ⟨i, by omega, hplace⟩
  ofItems h := h.mono fun _ _ => trivial
  missing {field} path location _ := by
    unfold missingField
    cases field.default with
    | some value => exact .nil
    | none =>
      cases field.required with
      | true => exact .singleton rfl trivial
      | false => exact .nil
  noticed _ _ h := h.append_left deprecationIssues_failing
  noMembers _ _ := .nil
  member {field declared path coerced parts} hdeclared hfirst hparts hnodup := by
    obtain ⟨hfresh, hnodup⟩ := List.nodup_cons.1 hnodup
    have hsegment := isSegment_of_isName (hnames field hdeclared)
    refine (FailsAt.append (hfirst.below hsegment) (hparts hnodup) ?_).mono ?_
    · rintro place hplace ⟨other, hother, hplace'⟩
      have hsame : other.name = field.name := Option.some.inj (hplace'.symm.trans hplace)
      exact hfresh (List.mem_map.2 ⟨other, hother, hsame⟩)
    · rintro place (hplace | ⟨other, hother, hplace⟩)
      · exact ⟨field, List.mem_cons_self, hplace⟩
      · exact ⟨other, List.mem_cons_of_mem field hother, hplace⟩
  ofMembers hbody _ hparts := by
    refine ((hparts (hdistinct _ _ hbody)).mono fun _ _ => trivial).append_left ?_
    intro issue hissue
    obtain ⟨given, _, rfl⟩ := List.mem_map.1 hissue
    rfl

end Parts

/-! ## §4 Coercions -/

/-- What a result under a path tells of failures: it is one if and only if an issue fails,
and failing issues are about different parts, where fields have lexical names. -/
structure Coerced.TellsFailures {m : Type → Type} (schema : Schema m) (path : Bytes)
    (coerced : Coerced) : Prop where
  failed_iff : coerced.outcome = .failed ↔ SomeFails coerced.issues
  distinct : (∀ field, schema.Declares field → isName field.name = true) →
    ((coerced.issues.filter Issue.failing).map (·.path)).Nodup
  within : (∀ field, schema.Declares field → isName field.name = true) →
    ∀ issue ∈ coerced.issues, issue.failing = true → IsWithin path issue.path

section Coerce

variable {m : Type → Type} [Monad m] [LawfulMonad m] [MonadAttach m] [LawfulMonadAttach m]
  {schema : Schema m} {type : TypeExpr TypeId} {path : Bytes} {coerced : Coerced}

theorem Input.tellsFailures_of_coerce (hdistinct : schema.DistinctFields) {input : Input}
    (h : CanReturn (input.coerce schema type path) coerced) :
    coerced.TellsFailures schema path := by
  have hfailsAt (hnames : ∀ field, schema.Declares field → isName field.name = true) :
      FailsAt path (fun _ => True) coerced.issues :=
    coerce_upholds (Coercion.invariant_failsAt hdistinct hnames) input (fun _ _ => trivial)
      (fun _ _ => trivial) type path coerced h
  refine ⟨?_, fun hnames => (hfailsAt hnames).paths.1, fun hnames => (hfailsAt hnames).paths.2⟩
  exact coerce_upholds (Coercion.invariant_told schema) input (fun _ _ => trivial)
    (fun _ _ => trivial) type path coerced h

/-- A runtime value is a value of the type, or it fails. -/
theorem Value.outcome_ne_absent {value : Value} {location : Option Location}
    (h : CanReturn (value.coerce schema location type path) coerced) :
    coerced.outcome ≠ .absent := by
  rw [Value.coerce_eq] at h
  refine ((Input.coerce_issuesAt schema _).2 (fun place hunbound => ?_) _ _ _ h).settled
  cases value <;> simp [Input.ofValue] at hunbound

/-- A reference to a variable without value is passed over in silence. -/
theorem Literal.issues_eq_nil {literal : Literal} {bindings : Members}
    (hunbound : literal.isUnbound bindings = true)
    (h : CanReturn (literal.coerce schema bindings type path) coerced) : coerced.issues = [] := by
  rw [coerce_of_isUnbound hunbound] at h
  cases LawfulMonadAttach.eq_of_canReturn_pure h
  rfl

end Coerce

namespace Definitions

variable {m : Type → Type} [Monad m] [LawfulMonad m] [MonadAttach m] [LawfulMonadAttach m]
  [MonadLog m] {definitions : Definitions m} {schema : Schema m}

/-- Outcomes and issues of a coercion match, with one issue for each part that fails.

The schema is one that is built, the input any literal, with any values for
variables, or any runtime value, at any type and under any path. The issues are
those that this coercion adds to what was reported before it. The input fails if
and only if an issue fails, and failing issues have paths that differ, which are the
given path or go on from it. A literal is without value if and only if it is a
reference to a variable without value, about which nothing is reported; a runtime
value is never without value. The coercion gives such a result at every type that
takes input, unless the coercion function of a scalar does not return. -/
theorem failures_of_build (hbuild : CanReturn definitions.build schema)
    (type : TypeExpr TypeId) (path : Bytes) :
    (definitions.CoercersReturn → schema.TakesInput type.leaf →
      (∀ bindings (literal : Literal), Returns (literal.coerce schema bindings type path)) ∧
      ∀ location (value : Value), Returns (value.coerce schema location type path)) ∧
    (∀ bindings (literal : Literal) coerced,
      CanReturn (literal.coerce schema bindings type path) coerced →
      coerced.TellsFailures schema path ∧
      (coerced.outcome = .absent ↔ literal.isUnbound bindings = true) ∧
      (coerced.outcome = .absent → coerced.issues = [])) ∧
    ∀ location (value : Value) coerced,
      CanReturn (value.coerce schema location type path) coerced →
      coerced.TellsFailures schema path ∧ coerced.outcome ≠ .absent := by
  have hdistinct := distinctFields_of_build hbuild
  refine ⟨fun hscalars htakes => ?_, ?_, ?_⟩
  · have hclosed := closed_of_build hbuild
    have hreturn := coercersReturn_of_build hscalars hbuild
    exact ⟨fun bindings literal => literal.coerce_returns hclosed hreturn bindings type path htakes,
      fun location value => value.coerce_returns hclosed hreturn location type path htakes⟩
  · intro bindings literal coerced h
    have habsent := Literal.absent_iff_of_coerce h
    refine ⟨?_, habsent, fun houtcome => Literal.issues_eq_nil (habsent.1 houtcome) h⟩
    rw [Literal.coerce_eq] at h
    exact Input.tellsFailures_of_coerce hdistinct h
  · intro location value coerced h
    refine ⟨?_, Value.outcome_ne_absent h⟩
    rw [Value.coerce_eq] at h
    exact Input.tellsFailures_of_coerce hdistinct h

/-- Two names are missing from a list of names, and a field is not declared. -/
theorem failures_of_build_greeting :
    let path := utf8 "guests"
    let literal : Literal := .object ⟨1, 15⟩
      [⟨utf8 "names", .list ⟨1, 22⟩
        [.null ⟨1, 23⟩, .string ⟨1, 29⟩ (utf8 "Ann"), .reference ⟨1, 36⟩ (utf8 "n")], ⟨1, 16⟩⟩,
        ⟨utf8 "more", .null ⟨1, 48⟩, ⟨1, 42⟩⟩]
    let coerced : Coerced := ⟨.failed,
      [⟨.unknown, utf8 "guests.more", [], some ⟨1, 42⟩⟩,
        ⟨.invalid, utf8 "guests.names.0", utf8 "Name", some ⟨1, 23⟩⟩,
        ⟨.invalid, utf8 "guests.names.2", utf8 "Name", some ⟨1, 36⟩⟩]⟩
    (CanReturn greeting.build Schema.greeting ∧ greeting.CoercersReturn ∧
      Schema.greeting.TakesInput 7 ∧
      (∀ field, Schema.greeting.Declares field → isName field.name = true) ∧
      CanReturn (literal.coerce Schema.greeting [] (.named 7) path) coerced) ∧
    Returns (literal.coerce Schema.greeting [] (.named 7) path) ∧
    SomeFails coerced.issues ∧ literal.isUnbound [] = false ∧
    ((coerced.issues.filter Issue.failing).map (·.path)).Nodup ∧
    IsWithin path (utf8 "guests.names.2") := by
  intro path literal coerced
  have htakes : Schema.greeting.TakesInput 7 := ⟨_, rfl, by decide⟩
  have hnames : ∀ field, Schema.greeting.Declares field → isName field.name = true := by
    rintro field ⟨id, declared, hbody, hfield⟩
    -- Only the last of the eight types is an input object.
    have hid : id < 8 := Schema.lt_of_body? hbody
    interval_cases id <;> cases hbody
    rw [List.mem_singleton.1 hfield]
    decide
  have hrun : (literal.coerce Schema.greeting [] (.named 7) path).run.run = Except.ok coerced := by
    decide +kernel
  have hcoerced : CanReturn (literal.coerce Schema.greeting [] (.named 7) path) coerced := hrun
  obtain ⟨hreturns, hliterals, -⟩ := failures_of_build build_greeting (.named 7) path
  obtain ⟨htells, habsent, -⟩ := hliterals [] literal coerced hcoerced
  refine ⟨⟨build_greeting, coercersReturn_greeting, htakes, hnames, hcoerced⟩,
    (hreturns coercersReturn_greeting htakes).1 [] literal, htells.failed_iff.1 rfl, ?_,
    htells.distinct hnames, ?_⟩
  · refine Bool.eq_false_iff.2 fun hunbound => ?_
    cases habsent.2 hunbound
  · exact htells.within hnames _ (List.mem_cons_of_mem _ (List.mem_cons_of_mem _
      List.mem_cons_self)) rfl

end Definitions

end GraphQL
