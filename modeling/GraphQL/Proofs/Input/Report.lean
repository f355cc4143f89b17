/-
GraphQL.Proofs.Input.Report — the summaries in the report on a field's arguments.

  §1 Summaries   — a summary among records, and the run of records after it.
  §2 Reports     — the parts of a report, each with its summary.
  §3 Findings    — every record of a report is of one of a few forms.

A report has a summary where there is something to sum up, and the summary is
followed by one record for each thing that it names. Both kinds of summary are
treated alike: what is needed of the other parts of a report is that they sum up
nothing, and do not continue the run.
-/
import GraphQL.Input.Arguments
import Mathlib.Data.List.Basic

namespace GraphQL

/-! ## §1 Summaries -/

/-- The names that records give from the first one on, as long as each gives one. -/
def ErrorRecord.run (name? : Message → Option Bytes) : List ErrorRecord → List Bytes
  | [] => []
  | record :: rest =>
    match name? record.message with
    | some name => name :: run name? rest
    | none => []

/-- The messages that sum up something are `summaries`. Records have one of them exactly if
there are names to give. Wherever it stands, it has the text given, and the names are those
of the records that follow it. -/
structure ErrorRecord.Summarised (records : List ErrorRecord) (summaries : Message → Prop)
    (name? : Message → Option Bytes) (names : List Bytes) (text : Bytes) : Prop where
  present : (∃ record ∈ records, summaries record.message) ↔ names ≠ []
  followed (before : List ErrorRecord) (record : ErrorRecord) (after : List ErrorRecord) :
    records = before ++ record :: after → summaries record.message →
    record.message.text = text ∧ run name? after = names

namespace ErrorRecord

variable {name? : Message → Option Bytes} {summaries : Message → Prop}

theorem run_append {records : List ErrorRecord} {names : List Bytes}
    (h : records.map (name? ·.message) = names.map some) (rest : List ErrorRecord) :
    run name? (records ++ rest) = names ++ run name? rest := by
  induction records generalizing names with
  | nil =>
    cases names with
    | nil => rfl
    | cons name names => cases h
  | cons record records ih =>
    cases names with
    | nil => cases h
    | cons name names =>
      obtain ⟨hname, hnames⟩ := List.cons.inj h
      rw [List.cons_append, run, show name? record.message = some name from hname, List.cons_append,
        ← ih hnames]

theorem run_eq_nil {records rest : List ErrorRecord}
    (hunnamed : ∀ record ∈ records, name? record.message = none) (hrest : run name? rest = []) :
    run name? (records ++ rest) = [] := by
  cases records with
  | nil => exact hrest
  | cons record records =>
    rw [List.cons_append, run, hunnamed record List.mem_cons_self]

/-- Where one element has a property, a list is split at it in one way. -/
theorem eq_of_append_cons {α : Type} {p : α → Prop} {xs ys before after : List α} {a b : α}
    (hxs : ∀ x ∈ xs, ¬ p x) (hys : ∀ y ∈ ys, ¬ p y)
    (h : xs ++ a :: ys = before ++ b :: after) (hb : p b) : a = b ∧ ys = after := by
  rcases List.append_eq_append_iff.1 h with ⟨middle, rfl, hsplit⟩ | ⟨middle, rfl, hsplit⟩
  · cases middle with
    | nil =>
      obtain ⟨rfl, rfl⟩ := List.cons.inj hsplit
      exact ⟨rfl, rfl⟩
    | cons c middle =>
      obtain ⟨rfl, rfl⟩ := List.cons.inj hsplit
      exact absurd hb (hys b (by simp))
  · cases middle with
    | nil =>
      obtain ⟨rfl, rfl⟩ := List.cons.inj hsplit
      exact ⟨rfl, rfl⟩
    | cons c middle =>
      obtain ⟨rfl, rfl⟩ := List.cons.inj hsplit
      exact absurd hb (hxs b (by simp))

/-- A summary that stands before its records, among others that sum up nothing. -/
theorem summarised_of_cons (before : List ErrorRecord) {details after : List ErrorRecord}
    {summary : ErrorRecord} {names : List Bytes} {text : Bytes}
    (hsummary : summaries summary.message) (htext : summary.message.text = text)
    (hnames : names ≠ [])
    (hbefore : ∀ record ∈ before, ¬ summaries record.message)
    (hlater : ∀ record ∈ details ++ after, ¬ summaries record.message)
    (hrun : run name? (details ++ after) = names) :
    Summarised (before ++ summary :: details ++ after) summaries name? names text := by
  rw [List.append_assoc, List.cons_append]
  constructor
  · exact iff_of_true ⟨summary, by simp, hsummary⟩ hnames
  · intro front record back hsplit hrecord
    obtain ⟨rfl, rfl⟩ :=
      eq_of_append_cons (p := fun record => summaries record.message) hbefore hlater hsplit hrecord
    exact ⟨htext, hrun⟩

theorem summarised_of_none {records : List ErrorRecord} {text : Bytes}
    (h : ∀ record ∈ records, ¬ summaries record.message) :
    Summarised records summaries name? [] text := by
  constructor
  · exact iff_of_false (fun ⟨record, hrecord, hsummary⟩ => h record hrecord hsummary) (by simp)
  · rintro before record after rfl hsummary
    exact absurd hsummary (h record (by simp))

end ErrorRecord

/-! ## §2 Reports -/

/-- The message sums up which required arguments are missing. -/
def Message.SumsUpMissing (message : Message) : Prop :=
  ∃ field names, message = .argumentsMissing field names

/-- The message sums up which arguments are badly formed. -/
def Message.SumsUpMalformed (message : Message) : Prop :=
  ∃ field count paths, message = .argumentsMalformed field count paths

/-- The argument, or the field inside one, that is told to be missing. -/
def Message.notProvided? : Message → Option Bytes
  | .inputMissing .argumentInput path _ => some path
  | _ => none

/-- The part of an argument that is told to be missing or invalid. -/
def Message.failingPath? : Message → Option Bytes
  | .inputMissing .argumentInput path _ => some path
  | .inputInvalid .argumentInput path _ => some path
  | _ => none

/-- The message is about an input that is not declared, or deprecated. -/
def Message.Harmless (message : Message) : Prop :=
  (∃ subject path, message = .inputUnknown subject path) ∨
    ∃ subject path type deprecation, message = .inputDeprecated subject path type deprecation

namespace Message.Harmless

variable {message : Message} (h : message.Harmless)
include h

theorem unnamed : message.notProvided? = none ∧ message.failingPath? = none := by
  obtain ⟨subject, path, rfl⟩ | ⟨subject, path, type, deprecation, rfl⟩ := h <;> exact ⟨rfl, rfl⟩

theorem sumsUpNothing : ¬ message.SumsUpMissing ∧ ¬ message.SumsUpMalformed := by
  obtain ⟨subject, path, rfl⟩ | ⟨subject, path, type, deprecation, rfl⟩ := h <;>
    simp [SumsUpMissing, SumsUpMalformed]

end Message.Harmless

namespace FieldSite

variable {m : Type → Type} (schema : Schema m) (site : FieldSite) (attempts : List ArgumentAttempt)

theorem harmless_undeclaredReport (declared : List Argument) (nodes : List (Entry Literal)) :
    ∀ record ∈ site.undeclaredReport declared nodes, record.message.Harmless := by
  intro record hrecord
  obtain ⟨node, _, rfl⟩ := List.mem_map.1 hrecord
  exact .inl ⟨_, _, rfl⟩

theorem harmless_unknownReport :
    ∀ record ∈ site.unknownReport attempts, record.message.Harmless := by
  intro record hrecord
  obtain ⟨records, hrecords, hrecord⟩ := List.mem_flatten.1 hrecord
  obtain ⟨attempt, _, rfl⟩ := List.mem_map.1 hrecords
  obtain ⟨issue, _, hrecord⟩ := List.mem_filterMap.1 hrecord
  split at hrecord
  · cases hrecord
    exact .inl ⟨_, _, rfl⟩
  · cases hrecord

theorem harmless_deprecatedReport :
    ∀ record ∈ site.deprecatedReport schema attempts, record.message.Harmless := by
  intro record hrecord
  obtain ⟨records, hrecords, hrecord⟩ := List.mem_flatten.1 hrecord
  obtain ⟨attempt, _, rfl⟩ := List.mem_map.1 hrecords
  cases hnode : attempt.node with
  | none => simp [hnode] at hrecord
  | some node =>
    rw [hnode] at hrecord
    rcases List.mem_append.1 hrecord with hrecord | hrecord
    · unfold argumentNotice at hrecord
      split at hrecord
      · cases hrecord
      · rw [List.mem_singleton.1 hrecord]
        exact .inr ⟨_, _, _, _, rfl⟩
    · obtain ⟨issue, _, hrecord⟩ := List.mem_filterMap.1 hrecord
      unfold issueNotice at hrecord
      split at hrecord
      · cases hrecord
        exact .inr ⟨_, _, _, _, rfl⟩
      · cases hrecord

/-- The names of missing arguments. -/
def missingNames : List Bytes := (attempts.filter (·.isMissing)).map (·.argument.name)

/-- The records for missing arguments, without the summary. -/
def missingDetails : List ErrorRecord :=
  (attempts.filter (·.isMissing)).map (missingRecord schema site)

theorem missingReport_eq : site.missingReport schema attempts =
    if missingNames attempts = [] then []
    else site.record (.argumentsMissing site.field (missingNames attempts)) ::
      missingDetails schema site attempts := by
  simp only [missingReport, missingNames, missingDetails, List.map_eq_nil_iff, List.isEmpty_iff]

theorem isEmpty_missingReport_iff :
    (site.missingReport schema attempts).isEmpty = false ↔ missingNames attempts ≠ [] := by
  rw [missingReport_eq]
  split <;> simp [*]

/-- How many arguments are badly formed. -/
def failingCount : Nat := attempts.countP fun attempt => !attempt.failures.isEmpty

/-- The paths of the parts that are badly formed. -/
def failingPaths : List Bytes := attempts.flatMap fun attempt => attempt.failures.map (·.path)

/-- The records for parts that are badly formed, without the summary. -/
def malformedDetails : List ErrorRecord :=
  attempts.flatMap fun attempt => attempt.failures.map fun issue =>
    .located (attempt.place issue site.location) site.path (failureMessage issue)

/-- Attempts without failures contribute nothing to what is made of failures. -/
theorem flatMap_malformed {α : Type} (f : ArgumentAttempt → Issue → α) :
    (attempts.filter fun attempt => !attempt.failures.isEmpty).flatMap
        (fun attempt => attempt.failures.map (f attempt)) =
      attempts.flatMap fun attempt => attempt.failures.map (f attempt) := by
  induction attempts with
  | nil => rfl
  | cons attempt attempts ih =>
    rw [List.filter_cons, List.flatMap_cons]
    cases hfailures : attempt.failures with
    | nil => simpa using ih
    | cons issue issues => simp [hfailures, ih]

theorem malformedReport_eq : site.malformedReport attempts =
    if failingPaths attempts = [] then []
    else site.record (.argumentsMalformed site.field (failingCount attempts)
      (failingPaths attempts)) :: malformedDetails site attempts := by
  have hpaths : ((attempts.filter fun attempt => !attempt.failures.isEmpty).map
      (·.failures)).flatten.map (·.path) = failingPaths attempts := by
    rw [← List.flatMap_def, List.map_flatMap]
    exact flatMap_malformed attempts fun _ issue => issue.path
  have hnone : (attempts.filter fun attempt => !attempt.failures.isEmpty).isEmpty = true ↔
      failingPaths attempts = [] := by
    simp [failingPaths]
  simp only [malformedReport, hpaths, hnone]
  rw [← List.flatMap_def, flatMap_malformed, ← List.countP_eq_length_filter]
  rfl

theorem isEmpty_malformedReport_iff :
    (site.malformedReport attempts).isEmpty = false ↔ failingPaths attempts ≠ [] := by
  rw [malformedReport_eq]
  split <;> simp [*]

/-- The whole report on arguments, in the order of the checks. -/
def report (declared : List Argument) (nodes : List (Entry Literal)) : List ErrorRecord :=
  site.missingReport schema attempts ++ site.undeclaredReport declared nodes
    ++ site.malformedReport attempts ++ site.unknownReport attempts
    ++ site.deprecatedReport schema attempts

theorem run_missingDetails : (missingDetails schema site attempts).map (·.message.notProvided?) =
    (missingNames attempts).map some := by
  rw [missingDetails, missingNames, List.map_map, List.map_map]
  rfl

theorem failingPath?_failureMessage (issue : Issue) :
    (failureMessage issue).failingPath? = some issue.path := by
  unfold failureMessage
  split <;> rfl

theorem run_malformedDetails : (malformedDetails site attempts).map (·.message.failingPath?) =
    (failingPaths attempts).map some := by
  simp only [malformedDetails, failingPaths, List.map_flatMap, List.map_map]
  refine List.flatMap_congr fun attempt _ => List.map_congr_left fun issue _ => ?_
  exact failingPath?_failureMessage issue

theorem not_sumsUp_failureMessage (issue : Issue) :
    ¬ (failureMessage issue).SumsUpMissing ∧ ¬ (failureMessage issue).SumsUpMalformed := by
  unfold failureMessage
  split <;> simp [Message.SumsUpMissing, Message.SumsUpMalformed]

theorem not_sumsUp_missingDetails : ∀ record ∈ missingDetails schema site attempts,
    ¬ record.message.SumsUpMissing ∧ ¬ record.message.SumsUpMalformed := by
  intro record hrecord
  obtain ⟨attempt, _, rfl⟩ := List.mem_map.1 hrecord
  simp [missingRecord, ErrorRecord.located, Message.SumsUpMissing, Message.SumsUpMalformed]

theorem not_sumsUp_malformedDetails : ∀ record ∈ malformedDetails site attempts,
    ¬ record.message.SumsUpMissing ∧ ¬ record.message.SumsUpMalformed := by
  intro record hrecord
  obtain ⟨attempt, _, hrecord⟩ := List.mem_flatMap.1 hrecord
  obtain ⟨issue, _, rfl⟩ := List.mem_map.1 hrecord
  exact not_sumsUp_failureMessage issue

theorem not_sumsUpMalformed_missingReport : ∀ record ∈ site.missingReport schema attempts,
    ¬ record.message.SumsUpMalformed := by
  intro record hrecord
  rw [missingReport_eq] at hrecord
  split at hrecord
  · cases hrecord
  · rcases List.mem_cons.1 hrecord with rfl | hrecord
    · simp [FieldSite.record, ErrorRecord.located, Message.SumsUpMalformed]
    · exact (not_sumsUp_missingDetails schema site attempts record hrecord).2

theorem not_sumsUpMissing_malformedReport : ∀ record ∈ site.malformedReport attempts,
    ¬ record.message.SumsUpMissing := by
  intro record hrecord
  rw [malformedReport_eq] at hrecord
  split at hrecord
  · cases hrecord
  · rcases List.mem_cons.1 hrecord with rfl | hrecord
    · simp [FieldSite.record, ErrorRecord.located, Message.SumsUpMissing]
    · exact (not_sumsUp_malformedDetails site attempts record hrecord).1

variable (declared : List Argument) (nodes : List (Entry Literal))

/-- Missing arguments are summed up before they are told of one by one. -/
theorem summarised_missing : ErrorRecord.Summarised (report schema site attempts declared nodes)
    Message.SumsUpMissing Message.notProvided? (missingNames attempts)
    (finding (utf8 "Field") site.field (argumentSummary (missingNames attempts).length
      (utf8 "required") (missingNames attempts) (utf8 "not provided"))) := by
  have hundeclared := harmless_undeclaredReport site declared nodes
  have hlast : ∀ record ∈ site.unknownReport attempts ++ site.deprecatedReport schema attempts,
      record.message.Harmless := List.forall_mem_append.2
    ⟨harmless_unknownReport site attempts, harmless_deprecatedReport schema site attempts⟩
  have hothers : ∀ record ∈ site.undeclaredReport declared nodes ++ (site.malformedReport attempts
      ++ (site.unknownReport attempts ++ site.deprecatedReport schema attempts)),
      ¬ record.message.SumsUpMissing := by
    refine List.forall_mem_append.2 ⟨fun record h => (hundeclared record h).sumsUpNothing.1, ?_⟩
    exact List.forall_mem_append.2 ⟨not_sumsUpMissing_malformedReport site attempts,
      fun record h => (hlast record h).sumsUpNothing.1⟩
  -- The run ends before the other parts: they begin with another summary, or are harmless.
  have hend : ErrorRecord.run Message.notProvided? (site.undeclaredReport declared nodes ++
      (site.malformedReport attempts ++
        (site.unknownReport attempts ++ site.deprecatedReport schema attempts))) = [] := by
    refine ErrorRecord.run_eq_nil (fun record h => (hundeclared record h).unnamed.1) ?_
    rw [malformedReport_eq]
    split
    · rw [List.nil_append, ← List.append_nil (_ ++ _)]
      exact ErrorRecord.run_eq_nil (fun record h => (hlast record h).unnamed.1) rfl
    · rfl
  rw [report, List.append_assoc, List.append_assoc, List.append_assoc, missingReport_eq]
  split
  case isTrue hnone =>
    rw [hnone, List.nil_append]
    exact ErrorRecord.summarised_of_none hothers
  case isFalse hsome =>
    refine ErrorRecord.summarised_of_cons [] ⟨_, _, rfl⟩ rfl hsome (by simp) ?_ ?_
    · exact List.forall_mem_append.2
        ⟨fun record h => (not_sumsUp_missingDetails schema site attempts record h).1, hothers⟩
    · rw [ErrorRecord.run_append (run_missingDetails schema site attempts), hend, List.append_nil]

/-- Badly formed arguments are summed up before their failing parts are told of. -/
theorem summarised_malformed : ErrorRecord.Summarised (report schema site attempts declared nodes)
    Message.SumsUpMalformed Message.failingPath? (failingPaths attempts)
    (finding (utf8 "Field") site.field (argumentSummary (failingCount attempts)
      (utf8 "badly formed") (failingPaths attempts) (utf8 "provided"))) := by
  have hlast : ∀ record ∈ site.unknownReport attempts ++ site.deprecatedReport schema attempts,
      record.message.Harmless := List.forall_mem_append.2
    ⟨harmless_unknownReport site attempts, harmless_deprecatedReport schema site attempts⟩
  have hfirst : ∀ record ∈ site.missingReport schema attempts ++
      site.undeclaredReport declared nodes, ¬ record.message.SumsUpMalformed :=
    List.forall_mem_append.2 ⟨not_sumsUpMalformed_missingReport schema site attempts,
      fun record h => (harmless_undeclaredReport site declared nodes record h).sumsUpNothing.2⟩
  have hend : ErrorRecord.run Message.failingPath?
      (site.unknownReport attempts ++ site.deprecatedReport schema attempts) = [] := by
    rw [← List.append_nil (_ ++ _)]
    exact ErrorRecord.run_eq_nil (fun record h => (hlast record h).unnamed.2) rfl
  rw [report, List.append_assoc _ (site.unknownReport attempts), malformedReport_eq]
  split
  case isTrue hnone =>
    rw [hnone, List.append_nil]
    exact ErrorRecord.summarised_of_none (List.forall_mem_append.2
      ⟨hfirst, fun record h => (hlast record h).sumsUpNothing.2⟩)
  case isFalse hsome =>
    refine ErrorRecord.summarised_of_cons _ ⟨_, _, _, rfl⟩ rfl hsome hfirst ?_ ?_
    · exact List.forall_mem_append.2
        ⟨fun record h => (not_sumsUp_malformedDetails site attempts record h).2,
          fun record h => (hlast record h).sumsUpNothing.2⟩
    · rw [ErrorRecord.run_append (run_malformedDetails site attempts), hend, List.append_nil]

/-! ## §3 Findings -/

/-- The records that a report may have: two summaries, and a record for each argument that
is missing or deprecated, for each node that is not declared, and for each issue. -/
inductive Finds {m : Type → Type} (schema : Schema m) (site : FieldSite)
    (attempts : List ArgumentAttempt) (nodes : List (Entry Literal)) : ErrorRecord → Prop
  | missing : Finds schema site attempts nodes
      (site.record (.argumentsMissing site.field (missingNames attempts)))
  | malformed : Finds schema site attempts nodes
      (site.record (.argumentsMalformed site.field (failingCount attempts) (failingPaths attempts)))
  | missingArgument {attempt : ArgumentAttempt} : attempt ∈ attempts →
    Finds schema site attempts nodes (missingRecord schema site attempt)
  | deprecatedArgument {attempt : ArgumentAttempt} {node : Entry Literal}
      {deprecation : Deprecation} : attempt ∈ attempts → attempt.node = some node →
    attempt.argument.deprecation = some deprecation → Finds schema site attempts nodes
      (.located node.location site.path (.inputDeprecated .argumentInput attempt.argument.name
        (schema.displayText attempt.argument.type) deprecation))
  | undeclared {node : Entry Literal} : node ∈ nodes → Finds schema site attempts nodes
      (.located node.location site.path (.inputUnknown .argumentInput node.name))
  | failing {attempt : ArgumentAttempt} {issue : Issue} : attempt ∈ attempts →
    issue ∈ attempt.coerced.issues → Finds schema site attempts nodes
      (.located (attempt.place issue site.location) site.path (failureMessage issue))
  | unknown {attempt : ArgumentAttempt} {issue : Issue} : attempt ∈ attempts →
    issue ∈ attempt.coerced.issues → Finds schema site attempts nodes
      (.located (attempt.place issue site.location) site.path
        (.inputUnknown .argumentInput issue.path))
  | deprecated {attempt : ArgumentAttempt} {issue : Issue} {deprecation : Deprecation} :
    attempt ∈ attempts → issue ∈ attempt.coerced.issues → issue.kind = .deprecated deprecation →
    Finds schema site attempts nodes (.located (attempt.place issue site.location) site.path
      (.inputDeprecated .argumentInput issue.path issue.typeName deprecation))

theorem finds_of_mem_missingReport {record : ErrorRecord}
    (h : record ∈ site.missingReport schema attempts) :
    Finds schema site attempts nodes record := by
  rw [missingReport_eq] at h
  split at h
  · cases h
  · rcases List.mem_cons.1 h with rfl | h
    · exact .missing
    · obtain ⟨attempt, hattempt, rfl⟩ := List.mem_map.1 h
      exact .missingArgument (List.mem_filter.1 hattempt).1

theorem finds_of_mem_malformedReport {record : ErrorRecord}
    (h : record ∈ site.malformedReport attempts) : Finds schema site attempts nodes record := by
  rw [malformedReport_eq] at h
  split at h
  · cases h
  · rcases List.mem_cons.1 h with rfl | h
    · exact .malformed
    · obtain ⟨attempt, hattempt, h⟩ := List.mem_flatMap.1 h
      obtain ⟨issue, hissue, rfl⟩ := List.mem_map.1 h
      exact .failing hattempt (List.mem_filter.1 hissue).1

theorem finds_of_mem_unknownReport {record : ErrorRecord}
    (h : record ∈ site.unknownReport attempts) : Finds schema site attempts nodes record := by
  obtain ⟨records, hrecords, hrecord⟩ := List.mem_flatten.1 h
  obtain ⟨attempt, hattempt, rfl⟩ := List.mem_map.1 hrecords
  obtain ⟨issue, hissue, hrecord⟩ := List.mem_filterMap.1 hrecord
  split at hrecord
  · cases hrecord
    exact .unknown hattempt hissue
  · cases hrecord

theorem finds_of_mem_deprecatedReport {record : ErrorRecord}
    (h : record ∈ site.deprecatedReport schema attempts) :
    Finds schema site attempts nodes record := by
  obtain ⟨records, hrecords, hrecord⟩ := List.mem_flatten.1 h
  obtain ⟨attempt, hattempt, rfl⟩ := List.mem_map.1 hrecords
  cases hnode : attempt.node with
  | none => simp [hnode] at hrecord
  | some node =>
    rw [hnode] at hrecord
    rcases List.mem_append.1 hrecord with hrecord | hrecord
    · unfold argumentNotice at hrecord
      split at hrecord
      · cases hrecord
      · rename_i deprecation hdeprecation
        rw [List.mem_singleton.1 hrecord]
        exact .deprecatedArgument hattempt hnode hdeprecation
    · obtain ⟨issue, hissue, hrecord⟩ := List.mem_filterMap.1 hrecord
      unfold issueNotice at hrecord
      split at hrecord
      · rename_i deprecation hkind
        cases hrecord
        exact .deprecated hattempt hissue hkind
      · cases hrecord

theorem finds_of_mem_report {record : ErrorRecord}
    (h : record ∈ report schema site attempts declared nodes) :
    Finds schema site attempts nodes record := by
  simp only [report, List.mem_append] at h
  rcases h with (((hmissing | hundeclared) | hmalformed) | hunknown) | hdeprecated
  · exact finds_of_mem_missingReport schema site attempts nodes hmissing
  · obtain ⟨node, hnode, rfl⟩ := List.mem_map.1 hundeclared
    exact .undeclared (List.mem_filter.1 hnode).1
  · exact finds_of_mem_malformedReport schema site attempts nodes hmalformed
  · exact finds_of_mem_unknownReport schema site attempts nodes hunknown
  · exact finds_of_mem_deprecatedReport schema site attempts nodes hdeprecated

end FieldSite

end GraphQL
