/-
GraphQL.Proofs.Input.ReorderedArguments — checks of arguments in another order.

  §1 Attempts  — the arguments of a field are tried alike.
  §2 Reports   — what is said of them.
  §3 Verdicts  — the order in which input is written decides nothing.

A check follows the declaration. What is written is searched by name for each
declared argument, and is gone through in its own order only for what is not
declared. So the records about the latter are all that may change places.
-/
import GraphQL.Input.Arguments
import GraphQL.Proofs.Input.Reordering
import GraphQL.Proofs.Value.Equality
import GraphQL.Schema.Build

namespace GraphQL

variable {m : Type → Type} [Monad m] [LawfulMonad m]

/-! ## §1 Attempts -/

namespace Literal

theorem Reordered.coerce (schema : Schema m) {bindings others : Members}
    (hbindings : Value.MembersReordered bindings others) {literal other : Literal}
    (h : literal.Reordered other) :
    (literal.coerce schema bindings).Rearranges (other.coerce schema others) := by
  rw [coerce_eq, coerce_eq]
  exact h.rearranges schema hbindings

/-- A search by name finds literals that are reordered, in one place, or none. -/
theorem EntriesReordered.find? {entries others : List (Entry Literal)}
    (h : EntriesReordered entries others) (name : Bytes) :
    Option.Rel (fun entry other => entry.location = other.location ∧
        Reordered entry.value other.value)
      (entries.find? (·.name == name)) (others.find? (·.name == name)) := by
  obtain ⟨hnames, halike, hperm⟩ := h
  rw [find?_eq_lookup, find?_eq_lookup]
  refine lookup_rel_perm (by rwa [List.map_map]) ?_ (hperm.map _) name
  rw [List.forall₂_map_left_iff, List.forall₂_map_right_iff]
  exact halike.forall₂

/-- The names of entries with their places are the same up to order. -/
theorem EntriesReordered.places {entries others : List (Entry Literal)}
    (h : EntriesReordered entries others) :
    (entries.map fun entry => (entry.name, entry.location)).Perm
      (others.map fun entry => (entry.name, entry.location)) := by
  obtain ⟨_, halike, hperm⟩ := h
  have hplaces := map_eq_of_forall₂ (f := fun entry => (entry.name, entry.location))
    (g := fun entry => (entry.name, entry.location)) halike.forall₂ fun _ _ hsame => by
      rw [hsame.1, hsame.2.1]
  exact hplaces ▸ hperm.map _

end Literal

namespace ArgumentAttempt

/-- Attempts at one argument, which is given in one place and coerced alike. -/
structure Rearranged (attempt other : ArgumentAttempt) : Prop where
  argument : attempt.argument = other.argument
  location : attempt.node.map (·.location) = other.node.map (·.location)
  coerced : attempt.coerced.Rearranged other.coerced

theorem make_rearranged (schema : Schema m) {bindings others : Members}
    (hbindings : Value.MembersReordered bindings others) {nodes changed : List (Entry Literal)}
    (hnodes : Literal.EntriesReordered nodes changed) (argument : Argument) :
    InStep Rearranged (make schema bindings nodes argument)
      (make schema others changed argument) := by
  have hfound := hnodes.find? argument.name
  unfold make
  generalize nodes.find? (·.name == argument.name) = node at hfound ⊢
  generalize changed.find? (·.name == argument.name) = other at hfound ⊢
  cases hfound with
  | none => exact .pure ⟨rfl, rfl, .refl _⟩
  | some hsame =>
    obtain ⟨hlocation, hvalue⟩ := hsame
    exact (hvalue.coerce schema hbindings argument.type argument.name).bind fun a b hab =>
      .pure ⟨rfl, congrArg some hlocation, hab⟩

namespace Rearranged

variable {attempt other : ArgumentAttempt}

theorem value?_eq (h : attempt.Rearranged other) : attempt.value? = other.value? := by
  unfold value?
  rw [h.coerced.outcome, h.argument]

theorem isMissing_eq (h : attempt.Rearranged other) : attempt.isMissing = other.isMissing := by
  unfold isMissing
  rw [h.coerced.outcome, h.argument]

theorem failures_eq (h : attempt.Rearranged other) : attempt.failures = other.failures :=
  h.coerced.issues.filter_eq fun issue (hissue : issue.kind = .unknown) => by
    simp [Issue.failing, hissue]

theorem place_eq (h : attempt.Rearranged other) (issue : Issue) (fallback : Location) :
    attempt.place issue fallback = other.place issue fallback := by
  unfold place
  rw [h.location]

end Rearranged

end ArgumentAttempt

/-! ## §2 Reports -/

/-- The record says that an input is not declared. -/
def ErrorRecord.AboutUnknown (record : ErrorRecord) : Prop :=
  ∃ subject path, record.message = .inputUnknown subject path

namespace FieldSite

variable (schema : Schema m) (site : FieldSite) {attempts others : List ArgumentAttempt}

omit [Monad m] [LawfulMonad m] in
theorem missingReport_congr (h : List.Forall₂ ArgumentAttempt.Rearranged attempts others) :
    site.missingReport schema attempts = site.missingReport schema others := by
  have hmissing : List.Forall₂ ArgumentAttempt.Rearranged (attempts.filter (·.isMissing))
      (others.filter (·.isMissing)) :=
    List.rel_filter (fun _ _ hsame => by simp only [hsame.isMissing_eq]) h
  unfold missingReport
  generalize attempts.filter (·.isMissing) = missing at hmissing ⊢
  generalize others.filter (·.isMissing) = lacking at hmissing ⊢
  have hempty : missing.isEmpty = lacking.isEmpty := by cases hmissing <;> rfl
  have hnames : missing.map (·.argument.name) = lacking.map (·.argument.name) :=
    map_eq_of_forall₂ hmissing fun _ _ hsame => by rw [hsame.argument]
  have hrecords : missing.map (site.missingRecord schema) =
      lacking.map (site.missingRecord schema) :=
    map_eq_of_forall₂ hmissing fun _ _ hsame => by
      rw [missingRecord, missingRecord, hsame.location, hsame.argument]
  simp only [hempty, hnames, hrecords]

theorem malformedReport_congr (h : List.Forall₂ ArgumentAttempt.Rearranged attempts others) :
    site.malformedReport attempts = site.malformedReport others := by
  have hmalformed : List.Forall₂ ArgumentAttempt.Rearranged
      (attempts.filter fun attempt => !attempt.failures.isEmpty)
      (others.filter fun attempt => !attempt.failures.isEmpty) :=
    List.rel_filter (fun _ _ hsame => by simp only [hsame.failures_eq]) h
  unfold malformedReport
  generalize (attempts.filter fun attempt => !attempt.failures.isEmpty) = malformed at hmalformed ⊢
  generalize (others.filter fun attempt => !attempt.failures.isEmpty) = failing at hmalformed ⊢
  have hempty : malformed.isEmpty = failing.isEmpty := by cases hmalformed <;> rfl
  have hfailures : malformed.map (·.failures) = failing.map (·.failures) :=
    map_eq_of_forall₂ hmalformed fun _ _ hsame => hsame.failures_eq
  have hrecords : (malformed.map fun attempt => attempt.failures.map fun issue =>
        ErrorRecord.located (attempt.place issue site.location) site.path (failureMessage issue)) =
      failing.map fun attempt => attempt.failures.map fun issue =>
        ErrorRecord.located (attempt.place issue site.location) site.path (failureMessage issue) :=
    map_eq_of_forall₂ hmalformed fun _ _ hsame => by
      simp only [hsame.failures_eq, hsame.place_eq]
  simp only [hempty, hfailures, hrecords, hmalformed.length_eq]

/-- Records about undeclared fields follow the issues about them. -/
theorem unknownReport_rearranged (h : List.Forall₂ ArgumentAttempt.Rearranged attempts others) :
    Rearranged ErrorRecord.AboutUnknown (site.unknownReport attempts)
      (site.unknownReport others) := by
  induction h with
  | nil => exact .refl _
  | cons hfirst _ ih =>
    refine Rearranged.append (.of_perm ?_ ?_) ih
    · simp only [hfirst.place_eq]
      exact hfirst.coerced.issues.perm.filterMap _
    · intro record hrecord
      obtain ⟨issue, -, hmade⟩ := List.mem_filterMap.1 hrecord
      split at hmade
      · cases hmade
        exact ⟨_, _, rfl⟩
      · cases hmade

omit [Monad m] [LawfulMonad m] in
theorem deprecatedReport_congr (h : List.Forall₂ ArgumentAttempt.Rearranged attempts others) :
    site.deprecatedReport schema attempts = site.deprecatedReport schema others := by
  refine congrArg List.flatten (map_eq_of_forall₂ h fun attempt other hsame => ?_)
  have hnotices : attempt.coerced.issues.filterMap (site.issueNotice attempt) =
      other.coerced.issues.filterMap (site.issueNotice other) := by
    have hnotice : site.issueNotice attempt = site.issueNotice other := by
      funext issue
      simp only [issueNotice, hsame.place_eq]
    rw [hnotice]
    exact hsame.coerced.issues.filterMap_eq fun issue (hissue : issue.kind = .unknown) => by
      rw [issueNotice, hissue]
  have hlocation := hsame.location
  cases hnode : attempt.node with
  | none =>
    cases hother : other.node with
    | none => rfl
    | some _ => simp [hnode, hother] at hlocation
  | some node =>
    cases hother : other.node with
    | none => simp [hnode, hother] at hlocation
    | some given =>
      rw [hnode, hother] at hlocation
      simp only [argumentNotice, hnotices, hsame.argument, Option.some.inj hlocation]

/-- Records about undeclared arguments follow the arguments. -/
theorem undeclaredReport_rearranged {nodes changed : List (Entry Literal)}
    (h : Literal.EntriesReordered nodes changed) (declared : List Argument) :
    Rearranged ErrorRecord.AboutUnknown (site.undeclaredReport declared nodes)
      (site.undeclaredReport declared changed) :=
  .of_views h.places (fun place => !declared.any (·.name == place.1))
    (fun place => ErrorRecord.located place.2 site.path (.inputUnknown .argumentInput place.1))
    fun _ => ⟨_, _, rfl⟩

end FieldSite

/-! ## §3 Verdicts -/

/-- The same arguments and the same decision, and the same records but for the
order of those about what is not declared. -/
structure ArgumentVerdict.Rearranged (verdict other : ArgumentVerdict) : Prop where
  values : verdict.values = other.values
  valid : verdict.valid = other.valid
  errors : GraphQL.Rearranged ErrorRecord.AboutUnknown verdict.errors other.errors

theorem argumentValues_eq {attempts others : List ArgumentAttempt}
    (h : List.Forall₂ ArgumentAttempt.Rearranged attempts others) :
    argumentValues attempts = argumentValues others := by
  induction h with
  | nil => rfl
  | cons hfirst _ ih =>
    unfold argumentValues at ih ⊢
    rw [List.filterMap_cons, List.filterMap_cons, hfirst.value?_eq, hfirst.argument, ih]

theorem checkArguments_rearranged (schema : Schema m) {bindings others : Members}
    (hbindings : Value.MembersReordered bindings others) (field : FieldType m) {node : Field}
    {changed : List (Entry Literal)} (hnodes : Literal.EntriesReordered node.arguments changed)
    (path : ResponsePath) :
    InStep ArgumentVerdict.Rearranged (checkArguments schema bindings field node path)
      (checkArguments schema others field { node with arguments := changed } path) := by
  refine (InStep.mapM (ArgumentAttempt.make_rearranged schema hbindings hnodes) _).bind
    fun attempts tried h => .pure ?_
  let site : FieldSite := ⟨field.name, node.location, path⟩
  have hmissing := site.missingReport_congr schema h
  have hmalformed := site.malformedReport_congr h
  have hdeprecated := site.deprecatedReport_congr schema h
  refine ⟨argumentValues_eq h, by rw [hmissing, hmalformed], ?_⟩
  rw [hmissing, hmalformed, hdeprecated]
  refine .append (.append (.append (.append (.refl _) ?_) (.refl _)) ?_) (.refl _)
  · exact site.undeclaredReport_rearranged hnodes field.arguments
  · exact site.unknownReport_rearranged h

/-- The order in which input is written decides nothing. Let the members of variables, the
arguments of a field, the fields of literals or the members of values be in any order, at any
depth. The same arguments have the same values, and the field may resolve or may not as before;
literals and values have the same outcome. What is said is the same and in the same order, but
for records and issues about what is not declared, which may have changed places with each
other. -/
theorem Schema.rearranged_of_reordered (schema : Schema m) {bindings others : Members}
    (hbindings : Value.MembersReordered bindings others) :
    (∀ (field : FieldType m) (node : Field) (changed : List (Entry Literal)),
      Literal.EntriesReordered node.arguments changed → ∀ path,
      InStep ArgumentVerdict.Rearranged (checkArguments schema bindings field node path)
        (checkArguments schema others field { node with arguments := changed } path)) ∧
    (∀ literal other : Literal, literal.Reordered other → ∀ type path,
      InStep Coerced.Rearranged (literal.coerce schema bindings type path)
        (other.coerce schema others type path)) ∧
    (∀ value other : Value, value.Reordered other → ∀ location type path,
      InStep Coerced.Rearranged (value.coerce schema location type path)
        (other.coerce schema location type path)) := by
  refine ⟨fun field node changed hnodes path => ?_, fun literal other h => ?_,
    fun value other h location => ?_⟩
  · exact checkArguments_rearranged schema hbindings field hnodes path
  · exact h.coerce schema hbindings
  · rw [value.coerce_eq, other.coerce_eq]
    exact h.rearranges schema location

/-- A field that takes stops and a start. -/
def FieldType.routing : FieldType Id where
  name := utf8 "route"
  type := .named 1
  arguments := [
    ⟨utf8 "stops", .list (.nonNull (.named 5)), none, none, []⟩,
    ⟨utf8 "start", .named 5, none, none, []⟩]
  resolver := memberResolver (utf8 "route")
  deprecation := none
  description := []

/-- A schema whose queries have that field. The nights of a stop are deprecated. -/
def Schema.routing : Schema Id where
  types := Build.builtInTypes ++ [
    .of (utf8 "Stop") [] (.inputObject [
      ⟨utf8 "place", .nonNull (.named 0), none, none, []⟩,
      ⟨utf8 "nights", .named 1, none, some ⟨none⟩, []⟩]),
    .of (utf8 "Query") [] (.object [.routing])]
  query := 6
  mutation := none

/-- A stop, two of whose members are not declared. -/
def Value.stop : Value :=
  .object [(utf8 "b", .int 1), (utf8 "place", .string (utf8 "C")), (utf8 "a", .int 2)]

/-- The same stop, its members the other way round. -/
def Value.stopReversed : Value :=
  .object [(utf8 "a", .int 2), (utf8 "place", .string (utf8 "C")), (utf8 "b", .int 1)]

/-- The fields of a stop that is written in a list. -/
def Literal.stopFields : List (Entry Literal) :=
  [⟨utf8 "hue", .null ⟨1, 18⟩, ⟨1, 14⟩⟩, ⟨utf8 "place", .string ⟨1, 30⟩ (utf8 "A"), ⟨1, 24⟩⟩,
    ⟨utf8 "size", .null ⟨1, 40⟩, ⟨1, 35⟩⟩]

/-- Two stops, the first with the fields given and the second a variable. -/
def Literal.stops (fields : List (Entry Literal)) : Literal :=
  .list ⟨1, 12⟩ [.object ⟨1, 13⟩ fields, .reference ⟨1, 47⟩ (utf8 "s")]

/-- The arguments of a selection, given the fields of a stop among them. Two are not declared. -/
def Field.routingArguments (stop : List (Entry Literal)) : List (Entry Literal) := [
  ⟨utf8 "stops", .stops stop, ⟨1, 6⟩⟩,
  ⟨utf8 "mood", .null ⟨1, 57⟩, ⟨1, 51⟩⟩,
  ⟨utf8 "start", .object ⟨1, 69⟩ [⟨utf8 "nights", .int ⟨1, 78⟩ 2, ⟨1, 70⟩⟩], ⟨1, 62⟩⟩,
  ⟨utf8 "pace", .null ⟨1, 88⟩, ⟨1, 82⟩⟩]

/-- A selection with these arguments. -/
def Field.routing : Field where
  aliasName := none
  name := utf8 "route"
  arguments := Field.routingArguments Literal.stopFields
  selections := []
  location := ⟨1, 1⟩

/-- The selection with other arguments. -/
def Field.rerouted : Field :=
  { Field.routing with arguments := (Field.routingArguments Literal.stopFields.reverse).reverse }

/-- What the check says of a selection, the variable being the stop given. -/
def ArgumentVerdict.routing (stop : Value) (node : Field) : Except Fault ArgumentVerdict :=
  (checkArguments Schema.routing [(utf8 "s", stop)] .routing node [.key (utf8 "route")]).run

theorem Value.reordered_stop : Value.stop.Reordered .stopReversed :=
  .object (.of_perm (by decide) (List.reverse_perm _).symm)

theorem Literal.reordered_stops :
    (Literal.stops stopFields).Reordered (.stops stopFields.reverse) :=
  .list (.cons (.object (.of_perm (by decide) (List.reverse_perm _).symm)) (.cons (.same _) .nil))

/-- The arguments, the fields of a stop and the members of a variable are turned round. The
records about what is not declared change places in each of three groups, and nothing else
does. -/
theorem Schema.rearranged_of_reordered_routing :
    let bindings := [(utf8 "s", Value.stop)]
    let others := [(utf8 "s", Value.stopReversed)]
    (Value.MembersReordered bindings others ∧
      Literal.EntriesReordered Field.routing.arguments Field.rerouted.arguments ∧
      (Literal.stops Literal.stopFields).Reordered (.stops Literal.stopFields.reverse) ∧
      Value.stop.Reordered .stopReversed) ∧
    (ArgumentVerdict.routing .stop .routing).map (·.errors.map (·.message)) = .ok [
      .inputUnknown .argumentInput (utf8 "mood"),
      .inputUnknown .argumentInput (utf8 "pace"),
      .argumentsMalformed (utf8 "route") 1 [utf8 "start.place"],
      .inputMissing .argumentInput (utf8 "start.place") (utf8 "String"),
      .inputUnknown .argumentInput (utf8 "stops.0.hue"),
      .inputUnknown .argumentInput (utf8 "stops.0.size"),
      .inputUnknown .argumentInput (utf8 "stops.1.b"),
      .inputUnknown .argumentInput (utf8 "stops.1.a"),
      .inputDeprecated .argumentInput (utf8 "start.nights") (utf8 "Int") ⟨none⟩] ∧
    (ArgumentVerdict.routing .stopReversed .rerouted).map (·.errors.map (·.message)) = .ok [
      .inputUnknown .argumentInput (utf8 "pace"),
      .inputUnknown .argumentInput (utf8 "mood"),
      .argumentsMalformed (utf8 "route") 1 [utf8 "start.place"],
      .inputMissing .argumentInput (utf8 "start.place") (utf8 "String"),
      .inputUnknown .argumentInput (utf8 "stops.0.size"),
      .inputUnknown .argumentInput (utf8 "stops.0.hue"),
      .inputUnknown .argumentInput (utf8 "stops.1.a"),
      .inputUnknown .argumentInput (utf8 "stops.1.b"),
      .inputDeprecated .argumentInput (utf8 "start.nights") (utf8 "Int") ⟨none⟩] ∧
    InStep ArgumentVerdict.Rearranged
      (checkArguments Schema.routing bindings .routing .routing [.key (utf8 "route")])
      (checkArguments Schema.routing others .routing .rerouted [.key (utf8 "route")]) ∧
    InStep Coerced.Rearranged
      ((Literal.stops Literal.stopFields).coerce Schema.routing bindings (.list (.named 5)) [])
      ((Literal.stops Literal.stopFields.reverse).coerce Schema.routing others
        (.list (.named 5)) []) ∧
    InStep Coerced.Rearranged (Value.stop.coerce Schema.routing none (.named 5) [])
      (Value.stopReversed.coerce Schema.routing none (.named 5) []) := by
  intro bindings others
  have hbindings : Value.MembersReordered bindings others :=
    .intro (by decide) (.cons Value.reordered_stop .nil) (.refl _)
  have harguments : Literal.EntriesReordered Field.routing.arguments Field.rerouted.arguments :=
    .intro (by decide) (.cons Literal.reordered_stops (.refl _)) (List.reverse_perm _).symm
  obtain ⟨hcheck, hliteral, hvalue⟩ := Schema.rearranged_of_reordered Schema.routing hbindings
  refine ⟨⟨hbindings, harguments, Literal.reordered_stops, Value.reordered_stop⟩,
    by decide +kernel, by decide +kernel, ?_, ?_, ?_⟩
  · exact hcheck .routing .routing _ harguments _
  · exact hliteral _ _ Literal.reordered_stops _ _
  · exact hvalue _ _ Value.reordered_stop _ _ _

end GraphQL
