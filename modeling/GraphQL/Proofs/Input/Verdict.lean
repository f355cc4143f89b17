/-
GraphQL.Proofs.Input.Verdict — the verdict on arguments, their values and the report.

  §1 Outcomes   — a coercion fails exactly if one of its issues says so.
  §2 Attempts   — what becomes of one declared argument.
  §3 Verdicts   — verdict, values and report agree.

The verdict is read off what was reported, and reports are made of issues. That
it says what the outcomes of the coercions say rests on one fact about results:
an outcome is a failure if and only if there is a failing issue.
-/
import GraphQL.Proofs.Input.Invariants
import GraphQL.Proofs.Input.Places
import GraphQL.Proofs.Input.Report
import GraphQL.Proofs.Input.SuppliedNotices
import GraphQL.Proofs.Value.Equality

namespace GraphQL

open MonadAttach (CanReturn)
open LawfulMonadAttach (canReturn_bind_imp' eq_of_canReturn_pure)

/-! ## §1 Outcomes -/

namespace SomeFails

theorem not_nil : ¬ SomeFails [] := by simp [SomeFails]

theorem append_iff {issues more : List Issue} :
    SomeFails (issues ++ more) ↔ SomeFails issues ∨ SomeFails more := by
  simp only [SomeFails, List.mem_append, or_and_right, exists_or]

theorem not_of_forall {issues : List Issue} (h : ∀ issue ∈ issues, issue.failing = false) :
    ¬ SomeFails issues := by
  rintro ⟨issue, hissue, hfailing⟩
  simp [h issue hissue] at hfailing

end SomeFails

/-- The result has an issue that fails exactly if it is a failure. -/
def Coerced.Told (coerced : Coerced) : Prop :=
  coerced.outcome = .failed ↔ SomeFails coerced.issues

/-- The same of the parts of a list or an object. -/
def Parts.Told {α : Type} (parts : Parts α) : Prop := parts.1 = none ↔ SomeFails parts.2

namespace Coerced

theorem told_ok (value : Value) : (ok value).Told :=
  iff_of_false (by simp [ok]) SomeFails.not_nil

theorem told_absent : absent.Told := iff_of_false (by simp [absent]) SomeFails.not_nil

theorem told_fail {issue : Issue} (h : issue.failing = true) : (fail issue).Told :=
  iff_of_true rfl ⟨issue, List.mem_cons_self, h⟩

theorem Told.map {coerced : Coerced} {f : Value → Value} (h : coerced.Told) :
    (coerced.map f).Told := by
  obtain ⟨outcome, issues⟩ := coerced
  cases outcome with
  | ok value => exact iff_of_false (by simp [Coerced.map]) fun hfails => by cases h.2 hfails
  | absent => exact h
  | failed => exact h

end Coerced

namespace Parts.Told

variable {coerced : Coerced}

theorem item {parts : Parts (List Value)} (hfirst : coerced.Told)
    (hsettled : coerced.outcome ≠ .absent) (hparts : parts.Told) : (parts.item coerced).Told := by
  obtain ⟨outcome, issues⟩ := coerced
  obtain ⟨values, later⟩ := parts
  have hissues : SomeFails issues ↔ outcome = .failed := hfirst.symm
  have hlater : SomeFails later ↔ values = none := hparts.symm
  unfold Parts.Told Parts.item
  rw [SomeFails.append_iff, hissues, hlater]
  cases outcome with
  | absent => exact absurd rfl hsettled
  | failed => simp
  | ok value => cases values <;> simp

theorem member {parts : Parts Members} (name : Bytes) (hfirst : coerced.Told)
    (hparts : parts.Told) : (parts.member name coerced).Told := by
  obtain ⟨outcome, issues⟩ := coerced
  obtain ⟨members, later⟩ := parts
  have hissues : SomeFails issues ↔ outcome = .failed := hfirst.symm
  have hlater : SomeFails later ↔ members = none := hparts.symm
  unfold Parts.Told Parts.member
  rw [SomeFails.append_iff, hissues, hlater]
  cases outcome with
  | absent => simp
  | failed => simp
  | ok value => cases members <;> simp

theorem whole {α : Type} {parts : Parts α} {make : α → Value} {own : List Issue}
    (hparts : parts.Told) (hown : ∀ issue ∈ own, issue.failing = false) :
    (parts.whole make own).Told := by
  obtain ⟨values, issues⟩ := parts
  have hissues : SomeFails issues ↔ values = none := hparts.symm
  unfold Coerced.Told Parts.whole
  rw [SomeFails.append_iff, or_iff_right (SomeFails.not_of_forall hown), hissues]
  cases values <;> simp

end Parts.Told

theorem Coercion.deprecationIssues_failing {m : Type → Type} {schema : Schema m}
    {field : Argument} {path : Bytes} {location : Option Location} :
    ∀ issue ∈ deprecationIssues schema field path location, issue.failing = false := by
  intro issue hissue
  obtain ⟨deprecation, hkind⟩ := deprecationIssues_isNotice issue hissue
  simp [Issue.failing, hkind]

section Coerce

variable {m : Type → Type} [Monad m] [MonadAttach m] (schema : Schema m)

/-- Failures are made of failures, and come with an issue where they begin. -/
theorem Coercion.invariant_told :
    Coercion.Invariant schema (fun _ => True) (fun _ => True) (fun _ => Coerced.Told)
      (fun _ _ => Parts.Told) (fun _ _ => Parts.Told) where
  unbound _ := Coerced.told_absent
  nullValue _ := Coerced.told_ok .null
  misfit _ _ _ := Coerced.told_fail rfl
  scalarValue _ _ _ _ := Coerced.told_ok _
  wrapped h := h.map
  noItems _ _ := iff_of_false (by simp) SomeFails.not_nil
  item hfirst hsettled hparts := hparts.item hfirst hsettled
  ofItems hparts := hparts.whole (by simp)
  missing {field} path location _ := by
    unfold missingField
    cases field.default with
    | some value => exact Coerced.told_ok value
    | none =>
      cases field.required with
      | true => exact Coerced.told_fail rfl
      | false => exact Coerced.told_absent
  noticed {field} {path} {coerced} location _ h := by
    unfold Coerced.Told at h ⊢
    rw [SomeFails.append_iff, or_iff_right (SomeFails.not_of_forall deprecationIssues_failing), h]
  noMembers _ := iff_of_false (by simp) SomeFails.not_nil
  member _ hfirst hparts := hparts.member _ hfirst
  ofMembers _ _ hparts := hparts.whole fun issue hissue => by
    obtain ⟨given, _, rfl⟩ := List.mem_map.1 hissue
    rfl

end Coerce

variable {m : Type → Type} [Monad m] [LawfulMonad m] [MonadAttach m] [LawfulMonadAttach m]
  {schema : Schema m} {bindings : Members}

/-- A runtime value fails exactly if an issue with it fails. -/
theorem Value.told_of_coerce {value : Value} {location : Option Location}
    {type : TypeExpr TypeId} {path : Bytes} {coerced : Coerced}
    (h : CanReturn (value.coerce schema location type path) coerced) : coerced.Told := by
  rw [Value.coerce_eq] at h
  exact Input.coerce_upholds (Coercion.invariant_told schema) _ (fun _ _ => trivial)
    (fun _ _ => trivial) _ _ _ h

/-- A literal fails exactly if an issue with it fails. -/
theorem Literal.told_of_coerce {literal : Literal} {type : TypeExpr TypeId} {path : Bytes}
    {coerced : Coerced} (h : CanReturn (literal.coerce schema bindings type path) coerced) :
    coerced.Told := by
  rw [Literal.coerce_eq] at h
  exact Input.coerce_upholds (Coercion.invariant_told schema) _ (fun _ _ => trivial)
    (fun _ _ => trivial) _ _ _ h

/-- Only a reference to a variable without value is without value. -/
theorem Literal.absent_iff_of_coerce {literal : Literal} {type : TypeExpr TypeId} {path : Bytes}
    {coerced : Coerced} (h : CanReturn (literal.coerce schema bindings type path) coerced) :
    coerced.outcome = .absent ↔ literal.isUnbound bindings = true := by
  constructor
  · intro habsent
    by_contra hbound
    rw [Literal.coerce_eq] at h
    refine ((Input.coerce_issuesAt schema _).2 (fun location hunbound => hbound ?_) _ _ _ h).settled
      habsent
    cases literal with
    | reference place name =>
      unfold Input.ofLiteral at hunbound
      cases hvalue : bindings.lookup name with
      | none => simp [isUnbound, hvalue]
      | some value =>
        rw [hvalue] at hunbound
        cases value <;> simp [Input.ofValue] at hunbound
    | _ => simp [Input.ofLiteral] at hunbound
  · intro hunbound
    rw [coerce_of_isUnbound hunbound] at h
    cases eq_of_canReturn_pure h
    rfl

/-! ## §2 Attempts -/

/-- The field gives nothing for an argument: no node of its name, or a reference to a
variable without value. -/
def Field.leavesOut (node : Field) (bindings : Members) (argument : Argument) : Bool :=
  node.arguments.all fun entry => entry.name != argument.name || entry.value.isUnbound bindings

/-- What an attempt at a declared argument says: its node is the one of that name, if there
is one, and its result is a result of coercing what the node gives. -/
structure ArgumentAttempt.MadeOf (schema : Schema m) (bindings : Members) (node : Field)
    (argument : Argument) (attempt : ArgumentAttempt) : Prop where
  argument_eq : attempt.argument = argument
  node_iff (entry : Entry Literal) :
    attempt.node = some entry ↔ entry ∈ node.arguments ∧ entry.name = argument.name
  supplied (entry : Entry Literal) : attempt.node = some entry →
    CanReturn (entry.value.coerce schema bindings argument.type argument.name) attempt.coerced
  unsupplied : attempt.node = none → attempt.coerced = .absent

namespace ArgumentAttempt

variable {node : Field} {argument : Argument} {attempt : ArgumentAttempt}

/-- Where names differ, the node that is found first is the only one. -/
theorem madeOf_of_make (hdistinct : (node.arguments.map (·.name)).Nodup)
    (h : CanReturn (make schema bindings node.arguments argument) attempt) :
    attempt.MadeOf schema bindings node argument := by
  have hargument := argument_of_make h
  unfold make at h
  cases hfind : node.arguments.find? (·.name == argument.name) with
  | none =>
    rw [hfind] at h
    cases eq_of_canReturn_pure h
    refine ⟨rfl, fun entry => ⟨by simp, ?_⟩, by simp, fun _ => rfl⟩
    rintro ⟨hentry, hname⟩
    simpa [hname] using List.find?_eq_none.1 hfind entry hentry
  | some given =>
    have hgiven := List.mem_of_find?_eq_some hfind
    have hname : given.name = argument.name := by simpa using List.find?_some hfind
    rw [hfind] at h
    obtain ⟨coerced, hcoerced, h⟩ := canReturn_bind_imp' h
    cases eq_of_canReturn_pure h
    refine ⟨rfl, fun entry => ⟨?_, ?_⟩, ?_, by simp⟩
    · rintro ⟨⟩
      exact ⟨hgiven, hname⟩
    · rintro ⟨hentry, hsame⟩
      rw [List.inj_on_of_nodup_map hdistinct hgiven hentry (hname.trans hsame.symm)]
    · rintro entry ⟨⟩
      exact hcoerced

namespace MadeOf

variable (h : attempt.MadeOf schema bindings node argument)
include h

/-- The attempt fails exactly if it has failures to report. -/
theorem told : attempt.coerced.Told := by
  cases hnode : attempt.node with
  | none =>
    rw [h.unsupplied hnode]
    exact Coerced.told_absent
  | some entry => exact Literal.told_of_coerce (h.supplied entry hnode)

theorem absent_iff :
    attempt.coerced.outcome = .absent ↔ node.leavesOut bindings argument = true := by
  simp only [Field.leavesOut, List.all_eq_true, Bool.or_eq_true, bne_iff_ne]
  cases hnode : attempt.node with
  | none =>
    rw [h.unsupplied hnode]
    refine iff_of_true rfl fun entry hentry => .inl fun hname => ?_
    simpa [hnode] using (h.node_iff entry).2 ⟨hentry, hname⟩
  | some entry =>
    obtain ⟨hentry, hname⟩ := (h.node_iff entry).1 hnode
    rw [Literal.absent_iff_of_coerce (h.supplied entry hnode)]
    constructor
    · intro hunbound other hother
      by_cases hsame : other.name = argument.name
      · have hother := (h.node_iff other).2 ⟨hother, hsame⟩
        rw [hnode] at hother
        cases hother
        exact .inr hunbound
      · exact .inl hsame
    · intro hall
      exact (hall entry hentry).resolve_left fun hne => hne hname

theorem isMissing_eq :
    attempt.isMissing = (argument.required && node.leavesOut bindings argument) := by
  have habsent := h.absent_iff
  rw [isMissing, h.argument_eq]
  cases houtcome : attempt.coerced.outcome with
  | absent => rw [habsent.1 houtcome, Bool.and_true]
  | ok value =>
    rw [houtcome] at habsent
    simpa using fun _ => habsent
  | failed =>
    rw [houtcome] at habsent
    simpa using fun _ => habsent

theorem failures_ne_nil_iff : attempt.failures ≠ [] ↔ attempt.coerced.outcome = .failed := by
  have htold : attempt.coerced.outcome = .failed ↔ SomeFails attempt.coerced.issues := h.told
  rw [htold]
  constructor
  · intro hfailures
    obtain ⟨issue, hissue⟩ := List.exists_mem_of_ne_nil _ hfailures
    exact ⟨issue, (List.mem_filter.1 hissue).1, (List.mem_filter.1 hissue).2⟩
  · rintro ⟨issue, hissue, hfailing⟩
    exact List.ne_nil_of_mem (List.mem_filter.2 ⟨hissue, hfailing⟩)

/-- The argument has its value, or is left out and has its default. -/
theorem value?_eq_some_iff {value : Value} : attempt.value? = some value ↔
    attempt.coerced.outcome = .ok value ∨
      node.leavesOut bindings argument = true ∧ argument.default = some value := by
  have habsent := h.absent_iff
  rw [value?, h.argument_eq, ← habsent]
  cases attempt.coerced.outcome <;> simp

end MadeOf

end ArgumentAttempt

/-! ## §3 Verdicts -/

/-- The coercion has failed. -/
def Coerced.hasFailed (coerced : Coerced) : Bool :=
  match coerced.outcome with
  | .failed => true
  | _ => false

theorem Coerced.hasFailed_iff {coerced : Coerced} :
    coerced.hasFailed = true ↔ coerced.outcome = .failed := by
  unfold hasFailed
  cases coerced.outcome <;> simp

/-- The required arguments that are left out. -/
def FieldType.missingNames (field : FieldType m) (bindings : Members) (node : Field) : List Bytes :=
  (field.arguments.filter fun argument =>
    argument.required && node.leavesOut bindings argument).map (·.name)

/-- What a verdict says agrees with the attempts at the declared arguments. -/
structure ArgumentVerdict.Agrees (bindings : Members) (field : FieldType m) (node : Field)
    (path : ResponsePath) (attempts : List ArgumentAttempt) (verdict : ArgumentVerdict) :
    Prop where
  /-- The field may not resolve if a required argument is left out or a coercion fails. -/
  invalid_iff : verdict.valid = false ↔
    (∃ argument ∈ field.arguments,
      argument.required = true ∧ node.leavesOut bindings argument = true) ∨
    ∃ attempt ∈ attempts, attempt.coerced.outcome = .failed
  /-- Values are those of declared arguments, in the order of their declarations. -/
  declared : (verdict.values.map (·.1)).Sublist (field.arguments.map (·.name))
  /-- A value is what was coerced, or the default of what is left out. -/
  mem_values_iff (name : Bytes) (value : Value) : (name, value) ∈ verdict.values ↔
    ∃ attempt ∈ attempts, attempt.argument.name = name ∧
      (attempt.coerced.outcome = .ok value ∨
        node.leavesOut bindings attempt.argument = true ∧ attempt.argument.default = some value)
  placed : ∀ record ∈ verdict.errors, record.path = some path
  /-- The arguments that are missing are counted and named, and told of one by one. -/
  missing : ErrorRecord.Summarised verdict.errors Message.SumsUpMissing Message.notProvided?
    (field.missingNames bindings node)
    (finding (utf8 "Field") field.name
      (argumentSummary (field.missingNames bindings node).length (utf8 "required")
        (field.missingNames bindings node) (utf8 "not provided")))
  /-- The arguments that failed are counted, and their failing parts are named and told of one
  by one. -/
  malformed : ErrorRecord.Summarised verdict.errors Message.SumsUpMalformed Message.failingPath?
    (FieldSite.failingPaths attempts)
    (finding (utf8 "Field") field.name
      (argumentSummary (attempts.countP (·.coerced.hasFailed)) (utf8 "badly formed")
        (FieldSite.failingPaths attempts) (utf8 "provided")))

section Attempts

variable {node : Field} {declared : List Argument} {attempts : List ArgumentAttempt}
  (h : List.Forall₂ (ArgumentAttempt.MadeOf schema bindings node) declared attempts)
include h

theorem missingNames_of_madeOf : FieldSite.missingNames attempts =
    (declared.filter fun argument =>
      argument.required && node.leavesOut bindings argument).map (·.name) := by
  induction h with
  | nil => rfl
  | @cons argument attempt declared attempts hfirst _ ih =>
    unfold FieldSite.missingNames at ih ⊢
    rw [List.filter_cons, List.filter_cons, hfirst.isMissing_eq]
    split
    · rw [List.map_cons, List.map_cons, ih, hfirst.argument_eq]
    · exact ih

theorem failingCount_of_madeOf :
    FieldSite.failingCount attempts = attempts.countP (·.coerced.hasFailed) := by
  refine List.countP_congr fun attempt hattempt => ?_
  obtain ⟨argument, _, hmade⟩ := exists_of_mem_right h hattempt
  rw [Coerced.hasFailed_iff, ← hmade.failures_ne_nil_iff]
  simp

omit [LawfulMonad m] [LawfulMonadAttach m] in
theorem argumentValues_sublist :
    ((argumentValues attempts).map (·.1)).Sublist (declared.map (·.name)) := by
  induction h with
  | nil => exact List.Sublist.slnil
  | @cons argument attempt declared attempts hfirst _ ih =>
    unfold argumentValues at ih ⊢
    rw [List.filterMap_cons, List.map_cons]
    cases attempt.value? with
    | none => exact ih.cons _
    | some value =>
      rw [Option.map_some, List.map_cons, hfirst.argument_eq]
      exact ih.cons_cons _

theorem mem_argumentValues_iff {name : Bytes} {value : Value} :
    (name, value) ∈ argumentValues attempts ↔
      ∃ attempt ∈ attempts, attempt.argument.name = name ∧
        (attempt.coerced.outcome = .ok value ∨ node.leavesOut bindings attempt.argument = true ∧
          attempt.argument.default = some value) := by
  rw [argumentValues, List.mem_filterMap]
  refine exists_congr fun attempt => and_congr_right fun hattempt => ?_
  obtain ⟨argument, _, hmade⟩ := exists_of_mem_right h hattempt
  rw [hmade.argument_eq, ← hmade.value?_eq_some_iff]
  simp only [Option.map_eq_some_iff, Prod.mk.injEq]
  constructor
  · rintro ⟨_, hvalue, hname, rfl⟩
    exact ⟨hname, hvalue⟩
  · rintro ⟨hname, hvalue⟩
    exact ⟨value, hvalue, hname, rfl⟩

theorem failingPaths_eq_nil_iff : FieldSite.failingPaths attempts = [] ↔
    ¬ ∃ attempt ∈ attempts, attempt.coerced.outcome = .failed := by
  simp only [FieldSite.failingPaths, List.flatMap_eq_nil_iff, List.map_eq_nil_iff, not_exists,
    not_and]
  refine forall₂_congr fun attempt hattempt => ?_
  obtain ⟨argument, _, hmade⟩ := exists_of_mem_right h hattempt
  rw [← hmade.failures_ne_nil_iff, not_not]

end Attempts

/-- The check of a field's arguments, where no two nodes have a name in common. In a closed
schema whose scalars return it comes to a verdict. Whatever the verdict is, it says of the
attempts at the declared arguments what it should: the field may not resolve if and only if
a required argument is left out or a coercion has failed; the values, given in either case,
are those that were coerced, and defaults for what is left out; all records have the path
of the field; and each summary is there exactly if it has something to name, counts what it
should count, and names what is then told of one by one. -/
theorem checkArguments_agrees (field : FieldType m) {node : Field}
    (hdistinct : (node.arguments.map (·.name)).Nodup) (path : ResponsePath) :
    (schema.Closed → schema.CoercersReturn →
        (∀ argument ∈ field.arguments, schema.TakesInput argument.type.leaf) →
        Returns (checkArguments schema bindings field node path)) ∧
      ∀ verdict, CanReturn (checkArguments schema bindings field node path) verdict →
        ∃ attempts, List.Forall₂ (ArgumentAttempt.MadeOf schema bindings node) field.arguments
            attempts ∧
          verdict.Agrees bindings field node path attempts := by
  refine ⟨fun hclosed hscalars => checkArguments_returns hclosed hscalars bindings node path,
    fun verdict h => ?_⟩
  have hplaced := ArgumentVerdict.placedIn h
  obtain ⟨attempts, hattempts, h⟩ := canReturn_bind_imp' h
  cases eq_of_canReturn_pure h
  have hmade := (forall₂_of_canReturn_mapM hattempts).imp
    fun _ _ => ArgumentAttempt.madeOf_of_make hdistinct
  have hmissing := missingNames_of_madeOf hmade
  have hcount := failingCount_of_madeOf hmade
  let site : FieldSite := ⟨field.name, node.location, path⟩
  refine ⟨attempts, hmade, ?_, argumentValues_sublist hmade,
    fun name value => mem_argumentValues_iff hmade,
    fun record hrecord => (hplaced record hrecord).1, ?_, ?_⟩
  case refine_1 =>
    rw [Bool.and_eq_false_iff, FieldSite.isEmpty_missingReport_iff,
      FieldSite.isEmpty_malformedReport_iff, hmissing, Ne, Ne, failingPaths_eq_nil_iff hmade,
      not_not]
    simp only [List.map_eq_nil_iff, List.filter_eq_nil_iff, Bool.and_eq_true, not_forall, not_not,
      exists_prop]
  case refine_2 =>
    have hsummary := FieldSite.summarised_missing schema site attempts field.arguments
      node.arguments
    rw [hmissing] at hsummary
    exact hsummary
  case refine_3 =>
    have hsummary := FieldSite.summarised_malformed schema site attempts field.arguments
      node.arguments
    rw [hcount] at hsummary
    exact hsummary

/-- A field of the schema that cuts, with an argument of each sort: required, with a default,
an object with a required field, and a list. -/
def FieldType.sifting : FieldType Id where
  name := utf8 "sift"
  type := .named 1
  arguments := [
    ⟨utf8 "term", .nonNull (.named 0), none, none, []⟩,
    ⟨utf8 "limit", .named 1, some (.int 5), none, []⟩,
    ⟨utf8 "range", .named 5, none, none, []⟩,
    ⟨utf8 "counts", .list (.nonNull (.named 1)), none, none, []⟩,
    ⟨utf8 "first", .named 1, none, none, []⟩]
  resolver := memberResolver (utf8 "sift")
  deprecation := none
  description := []

/-- A selection of that field: the term is a variable without value, the object lacks its
field, two of three items are no numbers, and one argument is not declared. -/
def Field.sifting : Field where
  aliasName := none
  name := utf8 "sift"
  arguments := [
    ⟨utf8 "counts", .list ⟨1, 16⟩
      [.boolean ⟨1, 17⟩ true, .int ⟨1, 23⟩ 2, .string ⟨1, 26⟩ (utf8 "x")], ⟨1, 8⟩⟩,
    ⟨utf8 "term", .reference ⟨1, 38⟩ (utf8 "t"), ⟨1, 32⟩⟩,
    ⟨utf8 "range", .object ⟨1, 49⟩ [], ⟨1, 42⟩⟩,
    ⟨utf8 "first", .int ⟨1, 60⟩ 3, ⟨1, 53⟩⟩,
    ⟨utf8 "width", .null ⟨1, 70⟩, ⟨1, 63⟩⟩]
  selections := []
  location := ⟨1, 3⟩

/-- What the check says of the selection. -/
def ArgumentVerdict.sifting : Except Fault ArgumentVerdict :=
  (checkArguments Schema.cutting [] .sifting .sifting [.key (utf8 "sift")]).run

/-- One argument is missing and two are badly formed, with three failing parts between them.
The values are the default and what could be coerced. -/
theorem checkArguments_agrees_sifting :
    (Field.sifting.arguments.map (·.name)).Nodup ∧
      ∃ verdict, ArgumentVerdict.sifting = .ok verdict ∧
        verdict.values.map (·.1) = [utf8 "limit", utf8 "first"] ∧
        verdict.errors.map (·.message) = [
          .argumentsMissing (utf8 "sift") [utf8 "term"],
          .inputMissing .argumentInput (utf8 "term") (utf8 "String"),
          .inputUnknown .argumentInput (utf8 "width"),
          .argumentsMalformed (utf8 "sift") 2 [utf8 "range.low", utf8 "counts.0", utf8 "counts.2"],
          .inputMissing .argumentInput (utf8 "range.low") (utf8 "Int"),
          .inputInvalid .argumentInput (utf8 "counts.0") (utf8 "Int"),
          .inputInvalid .argumentInput (utf8 "counts.2") (utf8 "Int")] ∧
        ∃ attempts, List.Forall₂ (ArgumentAttempt.MadeOf Schema.cutting [] .sifting)
            FieldType.sifting.arguments attempts ∧
          verdict.Agrees [] FieldType.sifting .sifting [.key (utf8 "sift")] attempts := by
  have hdistinct : (Field.sifting.arguments.map (·.name)).Nodup := by decide
  have hvalues : ArgumentVerdict.sifting.map (·.values.map (·.1)) =
      .ok [utf8 "limit", utf8 "first"] := by decide +kernel
  have hmessages : ArgumentVerdict.sifting.map (·.errors.map (·.message)) = .ok [
      .argumentsMissing (utf8 "sift") [utf8 "term"],
      .inputMissing .argumentInput (utf8 "term") (utf8 "String"),
      .inputUnknown .argumentInput (utf8 "width"),
      .argumentsMalformed (utf8 "sift") 2 [utf8 "range.low", utf8 "counts.0", utf8 "counts.2"],
      .inputMissing .argumentInput (utf8 "range.low") (utf8 "Int"),
      .inputInvalid .argumentInput (utf8 "counts.0") (utf8 "Int"),
      .inputInvalid .argumentInput (utf8 "counts.2") (utf8 "Int")] := by decide +kernel
  cases hrun : ArgumentVerdict.sifting with
  | error fault =>
    rw [hrun] at hvalues
    cases hvalues
  | ok verdict =>
    rw [hrun] at hvalues hmessages
    refine ⟨hdistinct, verdict, rfl, Except.ok.inj hvalues, Except.ok.inj hmessages, ?_⟩
    exact (checkArguments_agrees .sifting hdistinct [.key (utf8 "sift")]).2 verdict
      hrun

end GraphQL
