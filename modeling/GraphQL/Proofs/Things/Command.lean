/-
GraphQL.Proofs.Things.Command — the exit status of the command.

  §1 Arguments — the lists of words that are accepted, option by option.
  §2 Reading   — the arguments are read as those lists say.
  §3 Answers   — the schema of the catalogue is built, and every query answered.
  §4 Statuses  — what each exit status says about a run.

The status of an answered query is told by its envelope alone, so it is right only
because an accepted query always has an object for its data, and because nothing
that a resolver or a coercion does ends a run of this schema early. All of this holds
with any JSON library. What is documented of sources that cannot be read holds of those
that cannot be opened, and of no others.
-/
import GraphQL.Things.Command
import GraphQL.Proofs.Execution.Returns
import GraphQL.Proofs.Schema.Consistent

namespace GraphQL.Things

open MonadAttach (CanReturn)

variable {library : Json.Library}

/-! ## §1 Arguments -/

/-- One option with its value, or one file: the words it takes, and the file that is named
after them. -/
inductive AcceptedPart (library : Json.Library) (file : Bytes) : List Bytes → Bytes → Prop
  | object {flag text : Bytes} {value : Value} :
    flag ∈ [utf8 "--variables", utf8 "--context"] → library.parse text = .ok value →
    value.isObject = true → AcceptedPart library file [flag, text] file
  | operation (name : Bytes) : AcceptedPart library file [utf8 "--operation", name] file
  | parallel : AcceptedPart library file [utf8 "--parallel"] file
  | logLevel {name : Bytes} :
    name ∈ [utf8 "debug", utf8 "info", utf8 "warn", utf8 "error", utf8 "silent"] →
    AcceptedPart library file [utf8 "--log-level", name] file
  | queryFile {name : Bytes} : name.head? ≠ some (ascii '-') → file = [] →
    AcceptedPart library file [name] name

/-- Words that are accepted from left to right, with the file named before them and the one
named at their end. The empty text stands for no file. -/
inductive Accepted (library : Json.Library) : Bytes → List Bytes → Bytes → Prop
  | nil {file : Bytes} : Accepted library file [] file
  | cons {file middle last : Bytes} {part rest : List Bytes} :
    AcceptedPart library file part middle → Accepted library middle rest last →
    Accepted library file (part ++ rest) last

/-- A flag that asks for help comes after words that are all accepted. -/
def HelpReached (library : Json.Library) (file : Bytes) (words : List Bytes) : Prop :=
  ∃ before help after last, words = before ++ help :: after ∧
    help ∈ [utf8 "-h", utf8 "--help"] ∧ Accepted library file before last

theorem HelpReached.cons {file middle : Bytes} {part rest : List Bytes}
    (hpart : AcceptedPart library file part middle) (h : HelpReached library middle rest) :
    HelpReached library file (part ++ rest) := by
  obtain ⟨before, help, after, last, rfl, hhelp, hbefore⟩ := h
  exact ⟨part ++ before, help, after, last, by simp, hhelp, .cons hpart hbefore⟩

/-! ## §2 Reading -/

/-- Variables and context are objects. -/
structure Proper (options : RequestOptions) : Prop where
  variableValues : options.variableValues.isObject = true
  context : options.context.isObject = true

theorem objectArgument_ok {console : Console} {flag text : Bytes} {value : Value} :
    objectArgument library console flag text = .ok value ↔
      library.parse text = .ok value ∧ value.isObject = true := by
  unfold objectArgument
  cases library.parse text with
  | error message => simp
  | ok found =>
    dsimp only
    split
    · rename_i hobject
      simp only [Except.ok.injEq]
      exact ⟨fun h => ⟨h, h ▸ hobject⟩, fun h => h.1⟩
    · rename_i hobject
      simp only [reduceCtorEq, false_iff, Except.ok.injEq]
      rintro ⟨rfl, h⟩
      exact hobject h

theorem ofName?_isSome_iff {name : Bytes} : (Level.ofName? name).isSome = true ↔
    name ∈ [utf8 "debug", utf8 "info", utf8 "warn", utf8 "error", utf8 "silent"] := by
  unfold Level.ofName?
  split_ifs <;> simp_all

/-- What reading the words may come to. -/
inductive Outcome (library : Json.Library) (file : Bytes) (words : List Bytes) :
    Verdict × Console → Prop
  | accepted {options : RequestOptions} {last : Bytes} {console : Console} :
    Accepted library file words last → Proper options →
    Outcome library file words (.accepted ⟨options, last⟩, console)
  | help {console : Console} : HelpReached library file words →
    Outcome library file words (.ended 0, console)
  | refused {console : Console} : Outcome library file words (.ended 2, console)

theorem Outcome.cons {file middle : Bytes} {part rest : List Bytes} {verdict : Verdict × Console}
    (hpart : AcceptedPart library file part middle) (h : Outcome library middle rest verdict) :
    Outcome library file (part ++ rest) verdict := by
  cases h with
  | accepted haccepted hproper => exact .accepted (.cons hpart haccepted) hproper
  | help hhelp => exact .help (hhelp.cons hpart)
  | refused => exact .refused

/-- The flag of an option. -/
def ValueOption.flag : ValueOption → Bytes
  | .variableValues => utf8 "--variables"
  | .context => utf8 "--context"
  | .operation => utf8 "--operation"
  | .logLevel => utf8 "--log-level"

theorem ofFlag?_eq_some_iff {flag : Bytes} {option : ValueOption} :
    ValueOption.ofFlag? flag = some option ↔ flag = option.flag := by
  constructor
  · intro h
    unfold ValueOption.ofFlag? at h
    split_ifs at h with hflag hflag hflag hflag <;> cases h <;> exact hflag
  · rintro rfl
    cases option <;> rfl

/-- Reading goes part by part, until a part is refused or asks for help. -/
theorem outcome_readArguments (invocation : Invocation) (console : Console) (words : List Bytes)
    (hproper : Proper invocation.options) :
    Outcome library invocation.queryFile words
      (readArguments library invocation console words) := by
  fun_induction readArguments library invocation console words with
  | case1 => exact .accepted .nil hproper
  | case2 => exact .refused
  | case3 => exact .refused
  | case4 _ _ _ _ _ _ _ hvalue hflag ih =>
    obtain ⟨hparse, hobject⟩ := objectArgument_ok.1 hvalue
    obtain rfl := ofFlag?_eq_some_iff.1 hflag
    have hmem : ValueOption.variableValues.flag ∈ [utf8 "--variables", utf8 "--context"] := .head _
    exact (ih ⟨hobject, hproper.context⟩).cons (.object hmem hparse hobject)
  | case5 => exact .refused
  | case6 _ _ _ _ _ _ _ hvalue hflag ih =>
    obtain ⟨hparse, hobject⟩ := objectArgument_ok.1 hvalue
    obtain rfl := ofFlag?_eq_some_iff.1 hflag
    have hmem : ValueOption.context.flag ∈ [utf8 "--variables", utf8 "--context"] :=
      .tail _ (.head _)
    exact (ih ⟨hproper.variableValues, hobject⟩).cons (.object hmem hparse hobject)
  | case7 _ _ _ name _ _ hflag ih =>
    obtain rfl := ofFlag?_eq_some_iff.1 hflag
    exact (ih ⟨hproper.variableValues, hproper.context⟩).cons (.operation name)
  | case8 => exact .refused
  | case9 _ _ _ _ _ _ hlevel hflag ih =>
    obtain rfl := ofFlag?_eq_some_iff.1 hflag
    have hname := ofName?_isSome_iff.1 (Option.isSome_iff_exists.2 ⟨_, hlevel⟩)
    exact (ih hproper).cons (.logLevel hname)
  | case10 _ _ _ _ ih => exact (ih ⟨hproper.variableValues, hproper.context⟩).cons .parallel
  | case11 _ _ _ rest _ _ hhelp =>
    exact .help ⟨[], _, rest, _, rfl, by simpa using hhelp, .nil⟩
  | case12 => exact .refused
  | case13 _ _ _ _ _ _ _ hdash hfile ih =>
    exact (ih hproper).cons (.queryFile hdash (by simpa using hfile))
  | case14 => exact .refused

theorem ofFlag?_eq_none {name : Bytes} (h : name.head? ≠ some (ascii '-')) :
    ValueOption.ofFlag? name = none := by
  by_contra hsome
  obtain ⟨option, hoption⟩ := Option.ne_none_iff_exists'.1 hsome
  obtain rfl := ofFlag?_eq_some_iff.1 hoption
  cases option <;> exact h rfl

/-- A word without a dash is the file of the query, if there is none yet. -/
theorem readArguments_queryFile {name : Bytes} (h : name.head? ≠ some (ascii '-'))
    (options : RequestOptions) (console : Console) (rest : List Bytes) :
    readArguments library ⟨options, []⟩ console (name :: rest) =
      readArguments library ⟨options, name⟩ console rest := by
  have hplain (flag : Bytes) (hflag : flag.head? = some (ascii '-')) : name ≠ flag := by
    rintro rfl
    exact h hflag
  have hparallel := hplain (utf8 "--parallel") rfl
  have hhelp := hplain (utf8 "-h") rfl
  have hlong := hplain (utf8 "--help") rfl
  rw [readArguments, ofFlag?_eq_none h]
  simp [hparallel, hhelp, hlong, h]

/-- One accepted part is passed over, whatever comes after it. -/
theorem readArguments_part {file middle : Bytes} {part : List Bytes}
    (h : AcceptedPart library file part middle) (options : RequestOptions) (console : Console) :
    ∃ (options' : RequestOptions) (console' : Console), ∀ rest : List Bytes,
      readArguments library ⟨options, file⟩ console (part ++ rest) =
        readArguments library ⟨options', middle⟩ console' rest := by
  have hoption (option : ValueOption) : ValueOption.ofFlag? option.flag = some option :=
    ofFlag?_eq_some_iff.2 rfl
  cases h with
  | @object flag text value hflag hparse hobject =>
    have hvalue : objectArgument library console flag text = .ok value :=
      objectArgument_ok.2 ⟨hparse, hobject⟩
    rcases List.mem_pair.1 hflag with rfl | rfl
    · refine ⟨{ options with variableValues := value }, console, fun rest => ?_⟩
      show readArguments library _ _ (ValueOption.variableValues.flag :: text :: rest) = _
      rw [readArguments, hoption]
      dsimp only
      rw [show ValueOption.variableValues.flag = utf8 "--variables" from rfl, hvalue]
    · refine ⟨{ options with context := value }, console, fun rest => ?_⟩
      show readArguments library _ _ (ValueOption.context.flag :: text :: rest) = _
      rw [readArguments, hoption]
      dsimp only
      rw [show ValueOption.context.flag = utf8 "--context" from rfl, hvalue]
  | operation name =>
    refine ⟨{ options with operationName := some name }, console, fun rest => ?_⟩
    show readArguments library _ _ (ValueOption.operation.flag :: name :: rest) = _
    rw [readArguments, hoption]
  | parallel =>
    refine ⟨{ options with parallel := true }, console, fun rest => ?_⟩
    rfl
  | @logLevel name hname =>
    obtain ⟨threshold, hthreshold⟩ := Option.isSome_iff_exists.1 (ofName?_isSome_iff.2 hname)
    refine ⟨options, { console with threshold }, fun rest => ?_⟩
    show readArguments library _ _ (ValueOption.logLevel.flag :: name :: rest) = _
    rw [readArguments, hoption]
    dsimp only
    rw [hthreshold]
  | queryFile hdash hfile =>
    subst hfile
    exact ⟨options, console, readArguments_queryFile hdash options console⟩

/-- Accepted words are passed over, whatever comes after them. -/
theorem readArguments_append {file last : Bytes} {words : List Bytes}
    (h : Accepted library file words last) : ∀ (options : RequestOptions) (console : Console),
    ∃ (options' : RequestOptions) (console' : Console), ∀ rest : List Bytes,
      readArguments library ⟨options, file⟩ console (words ++ rest) =
        readArguments library ⟨options', last⟩ console' rest := by
  induction h with
  | nil => exact fun options console => ⟨options, console, fun _ => rfl⟩
  | cons hpart _ ih =>
    intro options console
    obtain ⟨options₁, console₁, hstep⟩ := readArguments_part hpart options console
    obtain ⟨options₂, console₂, hwords⟩ := ih options₁ console₁
    exact ⟨options₂, console₂, fun rest => by rw [List.append_assoc, hstep, hwords]⟩

/-! ## §3 Answers -/

/-- The schema of the catalogue is built: its definitions are consistent. -/
theorem exists_build (library : Json.Library) :
    ∃ schema : Schema Host, (definitions library).build = do
    MonadLog.log .debug [utf8 "schema built with", decimal schema.types.length, utf8 "types"]
    return schema := by
  have hpure : (definitions library).CoercersPure := by
    intro scalar hscalar
    cases hscalar
  have hbuild : (definitions library).build = (do
      let written ← Build.checked (Build.arena (definitions library))
      let schema ← Build.settleDefaults written
      Build.checked (Build.withRoots (definitions library) schema)) >>= fun schema => do
        MonadLog.log .debug [utf8 "schema built with", decimal schema.types.length, utf8 "types"]
        return schema := by
    simp only [Definitions.build, bind_assoc]
  rcases Build.decides_schema hpure with ⟨-, schema, heq, -⟩ | ⟨-, problem, heq⟩
  · exact ⟨schema, by rw [hbuild, heq, pure_bind]⟩
  · -- A problem would be found whatever the session is, but there is one in which none is.
    let session : Session Catalogue := ⟨.blank [] .silent, .initial⟩
    have hbuilt : Except.isOk ((definitions library).build.run.run session).1 = true := by rfl
    rw [hbuild, heq] at hbuilt
    cases hbuilt

/-- What a query text is answered with: an envelope, whose data is an object if the text has
a document, and null if it is refused. The status goes by that. -/
inductive Answers (query : Bytes) (value : Value) : Prop
  | accepted {document : Document} {response : Response} : Document.ofText query = .ok document →
    Value.Envelops (.object response.data) response.errors value → statusOf value = 0 →
    Answers query value
  | refused {error : SyntaxError} : Document.ofText query = .error error →
    Value.Envelops .null [Request.refusalRecord error] value → statusOf value = 1 →
    Answers query value

/-- In any session a query is answered. -/
theorem exists_answer (library : Json.Library) {options : RequestOptions} (hproper : Proper options)
    (query : Bytes) (session : Session Catalogue) :
    ∃ (response : Value) (session' : Session Catalogue),
      (answer library options query).run.run session = (.ok (.ok response), session') ∧
      Answers query response := by
  obtain ⟨schema, heq⟩ := exists_build library
  have hbuild : CanReturn (definitions library).build schema := by
    rw [heq]
    exact ⟨session, _, rfl⟩
  have hscalars : (definitions library).CoercersReturn := by
    intro scalar hscalar
    cases hscalar
  have hobject {value : Value} (h : value.isObject = true) : value.isObjectOrNull = true := by
    cases value <;> trivial
  have hanswered : Request.Answered schema options query :=
    Request.answered_of_returns (fun document =>
      Request.runDocument_returns (Definitions.closed_of_build hbuild)
        (Definitions.coercersReturn_of_build hscalars hbuild) (hobject hproper.variableValues)
        (hobject hproper.context) document) query
  unfold answer
  simp only [heq, bind_assoc, pure_bind]
  cases hanswered with
  | answered hquery _ hexecute henvelope =>
    rw [hexecute]
    exact ⟨_, _, rfl, .accepted hquery (henvelope _) rfl⟩
  | malformed hquery _ hexecute henvelope =>
    rw [hexecute]
    exact ⟨_, _, rfl, .refused hquery henvelope rfl⟩

/-! ## §4 Statuses -/

/-- The contents of the query's source: the file that is named, or the standard input. -/
def sourceContents (stdin : Contents) (file : Bytes → Option Contents) (name : Bytes) :
    Option Contents :=
  if name = [] then some stdin else file name

/-- The text that was read, if it was read to its end. -/
def Contents.whole? : Contents → Option Bytes
  | .whole text => some text
  | .broken _ => none

/-- The exit status is one exactly if all arguments are accepted, the source has a text, and
this is refused. It is zero exactly if help is asked for after accepted arguments, or if they
are all accepted and the source has a text that has a document, whatever is wrong with its
operations, variables and fields. Otherwise it is two, and nothing is answered. -/
structure Ending.StatusExact (library : Json.Library) (words : List Bytes)
    (source : Bytes → Option Bytes) (ending : Ending) : Prop where
  refused : ending.status = 1 ↔ ∃ name query error, Accepted library [] words name ∧
    source name = some query ∧ Document.ofText query = .error error
  accepted : ending.status = 0 ↔ HelpReached library [] words ∨
    ∃ name query document, Accepted library [] words name ∧
      source name = some query ∧ Document.ofText query = .ok document
  otherwise : ending.status = 0 ∨ ending.status = 1 ∨
    ending.status = 2 ∧ ending.response = none

section Statuses

variable {words : List Bytes} {source other : Bytes → Option Bytes} {ending : Ending}

/-- Only sources that are named by accepted words matter. -/
theorem Ending.StatusExact.congr (h : ending.StatusExact library words source)
    (hsame : ∀ name, Accepted library [] words name → source name = other name) :
    ending.StatusExact library words other where
  refused := by
    refine h.refused.trans (exists_congr fun name => exists_congr fun query =>
      exists_congr fun error => and_congr_right fun hname => ?_)
    rw [hsame name hname]
  accepted := by
    refine h.accepted.trans (or_congr_right (exists_congr fun name => exists_congr fun query =>
      exists_congr fun document => and_congr_right fun hname => ?_))
    rw [hsame name hname]
  otherwise := h.otherwise

/-- A text that is read decides between zero and one, help gives zero, and nothing else
gives either. -/
theorem Ending.statusExact_of_cases
    (hread : ∀ name query, Accepted library [] words name → source name = some query →
      (∃ document, Document.ofText query = .ok document) ∧ ending.status = 0 ∨
        (∃ error, Document.ofText query = .error error) ∧ ending.status = 1)
    (hhelp : HelpReached library [] words → ending.status = 0)
    (hcases : (∃ name query, Accepted library [] words name ∧ source name = some query) ∨
      HelpReached library [] words ∨ ending.status = 2 ∧ ending.response = none) :
    ending.StatusExact library words source where
  refused := by
    constructor
    · intro hstatus
      rcases hcases with ⟨name, query, h, hsource⟩ | h | h
      · rcases hread name query h hsource with ⟨-, hzero⟩ | ⟨⟨error, herror⟩, -⟩
        · cases hzero.symm.trans hstatus
        · exact ⟨name, query, error, h, hsource, herror⟩
      · cases (hhelp h).symm.trans hstatus
      · cases h.1.symm.trans hstatus
    · rintro ⟨name, query, error, h, hsource, herror⟩
      rcases hread name query h hsource with ⟨⟨document, hdocument⟩, -⟩ | ⟨-, hone⟩
      · cases hdocument.symm.trans herror
      · exact hone
  accepted := by
    constructor
    · intro hstatus
      rcases hcases with ⟨name, query, h, hsource⟩ | h | h
      · rcases hread name query h hsource with ⟨⟨document, hdocument⟩, -⟩ | ⟨-, hone⟩
        · exact .inr ⟨name, query, document, h, hsource, hdocument⟩
        · cases hone.symm.trans hstatus
      · exact .inl h
      · cases h.1.symm.trans hstatus
    · rintro (h | ⟨name, query, document, h, hsource, hdocument⟩)
      · exact hhelp h
      · rcases hread name query h hsource with ⟨-, hzero⟩ | ⟨⟨error, herror⟩, -⟩
        · exact hzero
        · cases hdocument.symm.trans herror
  otherwise := by
    rcases hcases with ⟨name, query, h, hsource⟩ | h | h
    · rcases hread name query h hsource with ⟨-, hzero⟩ | ⟨-, hone⟩
      · exact .inl hzero
      · exact .inr (.inl hone)
    · exact .inl (hhelp h)
    · exact .inr (.inr h)

end Statuses

section Runs

variable {arguments : List Bytes} {name : Bytes} (console : Console) (stdin : Contents)
  (file : Bytes → Option Contents)

/-- Accepted words are read as an invocation of the file that they name. -/
theorem exists_accept (h : Accepted library [] (arguments.map untilNul) name) :
    ∃ (options : RequestOptions) (console' : Console), Proper options ∧
      accept library console arguments = (.accepted ⟨options, name⟩, console') := by
  obtain ⟨options, console', hread⟩ := readArguments_append h .plain console
  have haccept : accept library console arguments = (.accepted ⟨options, name⟩, console') := by
    rw [accept, ← List.append_nil (arguments.map untilNul), hread]
    rfl
  refine ⟨options, console', ?_, haccept⟩
  have houtcome : Outcome library [] (arguments.map untilNul) (accept library console arguments) :=
    outcome_readArguments ⟨.plain, []⟩ console _ ⟨rfl, rfl⟩
  rw [haccept] at houtcome
  cases houtcome with
  | accepted _ hproper => exact hproper

/-- Words name one file at most. -/
theorem Accepted.unique {other : Bytes} (h : Accepted library [] (arguments.map untilNul) name)
    (hother : Accepted library [] (arguments.map untilNul) other) : name = other := by
  obtain ⟨_, _, -, haccept⟩ := exists_accept (.blank [] .silent) h
  obtain ⟨_, _, -, hagain⟩ := exists_accept (.blank [] .silent) hother
  rw [haccept] at hagain
  cases hagain
  rfl

/-- A run is that of the invocation, once the arguments are accepted. -/
theorem exists_conclude (h : Accepted library [] (arguments.map untilNul) name) :
    ∃ (options : RequestOptions) (console' : Console), Proper options ∧
      perform library console arguments stdin file =
        conclude library ⟨options, name⟩ console' (sourceContents stdin file name) := by
  obtain ⟨options, console', hproper, haccept⟩ := exists_accept console h
  refine ⟨options, console', hproper, ?_⟩
  rw [perform, haccept]
  simp only [querySource, sourceContents, List.isEmpty_iff]

/-- What is read of a source that was opened is answered. -/
theorem answered_of_opened {contents : Contents}
    (h : Accepted library [] (arguments.map untilNul) name)
    (hsource : sourceContents stdin file name = some contents) :
    ∃ value, Answers contents.read value ∧
      (perform library console arguments stdin file).response = some value ∧
      (perform library console arguments stdin file).status = statusOf value := by
  obtain ⟨options, console', hproper, hrun⟩ := exists_conclude console stdin file h
  obtain ⟨response, session, hanswer, hanswers⟩ :=
    exists_answer library hproper contents.read ⟨console', Catalogue.initial⟩
  rw [hrun, hsource, conclude]
  dsimp only
  rw [hanswer]
  exact ⟨response, hanswers, rfl, rfl⟩

theorem ended_of_unopened (h : Accepted library [] (arguments.map untilNul) name)
    (hsource : sourceContents stdin file name = none) :
    (perform library console arguments stdin file).status = 2 ∧
      (perform library console arguments stdin file).response = none := by
  obtain ⟨options, console', -, hrun⟩ := exists_conclude console stdin file h
  rw [hrun, hsource]
  exact ⟨rfl, rfl⟩

theorem ended_of_help (h : HelpReached library [] (arguments.map untilNul)) :
    (perform library console arguments stdin file).status = 0 ∧
      (perform library console arguments stdin file).response = none := by
  obtain ⟨before, help, after, last, hwords, hhelp, hbefore⟩ := h
  obtain ⟨options, console', hread⟩ := readArguments_append hbefore .plain console
  rw [perform, accept, hwords, hread]
  rcases List.mem_pair.1 hhelp with rfl | rfl <;> exact ⟨rfl, rfl⟩

variable (library arguments) in
/-- Either a source is opened, or help is reached, or the run ends without a response. -/
theorem perform_cases :
    (∃ name contents, Accepted library [] (arguments.map untilNul) name ∧
      sourceContents stdin file name = some contents) ∨
    HelpReached library [] (arguments.map untilNul) ∨
    (perform library console arguments stdin file).status = 2 ∧
      (perform library console arguments stdin file).response = none := by
  have houtcome : Outcome library [] (arguments.map untilNul) (accept library console arguments) :=
    outcome_readArguments ⟨.plain, []⟩ console _ ⟨rfl, rfl⟩
  cases haccept : accept library console arguments with
  | mk verdict console' =>
    rw [haccept] at houtcome
    cases houtcome with
    | @accepted options name _ haccepted =>
      cases hsource : sourceContents stdin file name with
      | none => exact .inr (.inr (ended_of_unopened console stdin file haccepted hsource))
      | some contents => exact .inl ⟨name, contents, haccepted, hsource⟩
    | help hhelp => exact .inr (.inl hhelp)
    | refused =>
      rw [perform, haccept]
      exact .inr (.inr ⟨rfl, rfl⟩)

variable (library arguments) in
/-- The status is exact if what was read counts as the text of a source. -/
theorem statusExact_read :
    (perform library console arguments stdin file).StatusExact library (arguments.map untilNul)
      fun name => (sourceContents stdin file name).map Contents.read := by
  refine Ending.statusExact_of_cases (fun name query h hquery => ?_)
    (fun h => (ended_of_help console stdin file h).1) ?_
  · obtain ⟨contents, hsource, rfl⟩ := Option.map_eq_some_iff.1 hquery
    obtain ⟨value, hanswers, -, hstatus⟩ := answered_of_opened console stdin file h hsource
    rw [hstatus]
    cases hanswers with
    | accepted hdocument _ hzero => exact .inl ⟨⟨_, hdocument⟩, hzero⟩
    | refused herror _ hone => exact .inr ⟨⟨_, herror⟩, hone⟩
  · refine (perform_cases library arguments console stdin file).imp_left ?_
    rintro ⟨name, contents, h, hsource⟩
    exact ⟨name, contents.read, h, by rw [hsource]; rfl⟩

variable (library arguments) in
/-- The status is exact if only what was read to its end counts, unless reading fails. -/
theorem statusExact_whole_iff :
    (perform library console arguments stdin file).StatusExact library (arguments.map untilNul)
        (fun name => (sourceContents stdin file name).bind Contents.whole?) ↔
      ∀ name front, Accepted library [] (arguments.map untilNul) name →
        sourceContents stdin file name ≠ some (.broken front) := by
  constructor
  · intro hexact name front h hsource
    have hnone (other : Bytes) (hother : Accepted library [] (arguments.map untilNul) other) :
        (sourceContents stdin file other).bind Contents.whole? = none := by
      rw [← h.unique hother, hsource]
      rfl
    obtain ⟨value, hanswers, hresponse, hstatus⟩ :=
      answered_of_opened console stdin file h hsource
    cases hanswers with
    | accepted _ _ hzero =>
      rcases hexact.accepted.1 (hstatus.trans hzero) with hhelp | ⟨other, _, _, hother, hread, _⟩
      · cases (ended_of_help console stdin file hhelp).2.symm.trans hresponse
      · cases (hnone other hother).symm.trans hread
    | refused _ _ hone =>
      obtain ⟨other, _, _, hother, hread, _⟩ := hexact.refused.1 (hstatus.trans hone)
      cases (hnone other hother).symm.trans hread
  · intro hwhole
    refine (statusExact_read library arguments console stdin file).congr fun name h => ?_
    cases hsource : sourceContents stdin file name with
    | none => rfl
    | some contents =>
      cases contents with
      | whole text => rfl
      | broken front => exact absurd hsource (hwhole name front h)

end Runs

/-- With any JSON library, the exit status is exact, what was read of a source that was
opened being its text, and so is the response: an envelope exactly if all arguments are
accepted and the source is opened, with null for its data if the status is one, and with an
object if it is zero. A source that is opened and then cannot be read to its end is none
of the inputs that are refused, so the status is the one that is documented unless there
is such a source. -/
theorem run_status_exact (library : Json.Library) (console : Console) (arguments : List Bytes)
    (stdin : Contents) (file : Bytes → Option Contents) :
    let words := arguments.map untilNul
    let source := sourceContents stdin file
    let ending := perform library console arguments stdin file
    ending.StatusExact library words (fun name => (source name).map Contents.read) ∧
    (ending.response.isSome = true ↔ ∃ name contents, Accepted library [] words name ∧
      source name = some contents) ∧
    (∀ value, ending.response = some value →
      (ending.status = 0 ∧ ∃ response : Response,
        Value.Envelops (.object response.data) response.errors value) ∨
      (ending.status = 1 ∧ ∃ error, Value.Envelops .null [Request.refusalRecord error] value)) ∧
    (ending.StatusExact library words (fun name => (source name).bind Contents.whole?) ↔
      ∀ name front, Accepted library [] words name → source name ≠ some (.broken front)) := by
  intro words source ending
  have hcases := perform_cases library arguments console stdin file
  have hopened (h : ending.response.isSome = true) :
      ∃ name contents, Accepted library [] words name ∧ source name = some contents := by
    rcases hcases with hopened | hhelp | hrefused
    · exact hopened
    · cases (congrArg Option.isSome (ended_of_help console stdin file hhelp).2).symm.trans h
    · cases (congrArg Option.isSome hrefused.2).symm.trans h
  refine ⟨statusExact_read library arguments console stdin file, ⟨hopened, ?_⟩, ?_,
    statusExact_whole_iff library arguments console stdin file⟩
  · rintro ⟨name, contents, h, hsource⟩
    obtain ⟨value, -, hresponse, -⟩ := answered_of_opened console stdin file h hsource
    exact congrArg Option.isSome hresponse
  · intro value hvalue
    obtain ⟨name, contents, h, hsource⟩ := hopened (congrArg Option.isSome hvalue)
    obtain ⟨given, hanswers, hresponse, hstatus⟩ := answered_of_opened console stdin file h hsource
    cases hresponse.symm.trans hvalue
    cases hanswers with
    | accepted _ henvelope hzero => exact .inl ⟨hstatus.trans hzero, _, henvelope⟩
    | refused _ henvelope hone => exact .inr ⟨hstatus.trans hone, _, henvelope⟩

/-- A directory that is named for a file is opened, and nothing can be read from it. Its
query is the empty text then, which is refused as a text, and not as an input. -/
theorem not_statusExact_directory :
    let arguments := [utf8 "/"]
    let file (name : Bytes) : Option Contents :=
      if isDirectoryName name then some (.broken []) else none
    let ending := perform .standIn (.blank [] .error) arguments (.whole []) file
    ending = run (.blank [] .error) arguments [] (fun _ => none) ∧
    ending.status = 1 ∧ ending.response.isSome = true ∧
    ¬ ending.StatusExact .standIn (arguments.map untilNul)
      (fun name => (sourceContents (.whole []) file name).bind Contents.whole?) := by
  intro arguments file ending
  have hname : Accepted .standIn [] (arguments.map untilNul) (utf8 "/") :=
    .cons (.queryFile (by decide) rfl) .nil
  have hsource : sourceContents (.whole []) file (utf8 "/") = some (.broken []) := rfl
  obtain ⟨value, hanswers, hresponse, hstatus⟩ :=
    answered_of_opened (.blank [] .error) (.whole []) file hname hsource
  refine ⟨rfl, ?_, congrArg Option.isSome hresponse, fun hexact => ?_⟩
  · have herror : (Document.ofText []).toOption.isNone = true := by decide +kernel
    cases hanswers with
    | accepted hdocument _ _ =>
      rw [show (Contents.broken []).read = [] from rfl] at hdocument
      rw [hdocument] at herror
      cases herror
    | refused _ _ hone => exact hstatus.trans hone
  · exact (statusExact_whole_iff _ _ (.blank [] .error) (.whole []) file).1 hexact _ _ hname
      hsource

end GraphQL.Things
