/-
GraphQL.Things.Command — the command line over the catalogue.

  §1 Invocations   — what the arguments ask for.
  §2 Arguments     — reading them from left to right.
  §3 Sources       — where the query is read, and what comes of reading it.
  §4 Runs          — answering a query, and the exit status.
  §5 Programs      — runs with a library and with files at hand.

Exit statuses: zero when the request was accepted, one when the query text
was refused, two when the arguments or an input were. The JSON library is the
host's; nothing is asked of it but that reading gives something or fails.
-/
import GraphQL.Execution.Request
import GraphQL.Json.Library
import GraphQL.Json.Writer
import GraphQL.Schema.Build
import GraphQL.Things.Catalogue

namespace GraphQL.Things

/-! ## §1 Invocations -/

/-- What the arguments ask for; without a file the query is read from the
standard input. -/
structure Invocation where
  options : RequestOptions
  queryFile : Bytes

/-- What the arguments come to. -/
inductive Verdict where
  | accepted (invocation : Invocation)
  /-- There is nothing more to do; the run ends with a status. -/
  | ended (status : Nat)

/-- How the command is used. -/
def usage : Bytes :=
  joined (utf8 " ") [utf8 "usage: gqlpp-things [--variables JSON] [--context JSON]",
    utf8 "[--operation NAME] [--parallel] [--log-level LEVEL] [query-file]\n"]

/-! ## §2 Arguments -/

/-- Shows how the command is used, and ends with a status. -/
def endWithUsage (console : Console) (status : Nat) : Verdict × Console :=
  (.ended status, console.printError usage)

/-- The value of an option that must be a JSON object. -/
def objectArgument (library : Json.Library) (console : Console) (flag text : Bytes) :
    Except Console Value :=
  match library.parse text with
  | .error message => .error (console.log .error [flag, utf8 "is not valid JSON:", message])
  | .ok value =>
    if value.isObject then .ok value
    else .error (console.log .error [flag, utf8 "must be a JSON object, got", value.kindText])

/-- An option that takes a value. -/
inductive ValueOption where
  | variableValues
  | context
  | operation
  | logLevel
deriving DecidableEq

/-- The option of a flag that takes a value. -/
def ValueOption.ofFlag? (flag : Bytes) : Option ValueOption :=
  if flag = utf8 "--variables" then some .variableValues
  else if flag = utf8 "--context" then some .context
  else if flag = utf8 "--operation" then some .operation
  else if flag = utf8 "--log-level" then some .logLevel
  else none

/-- Reads arguments from left to right. A log level takes effect at once. -/
def readArguments (library : Json.Library) (invocation : Invocation) (console : Console) :
    List Bytes → Verdict × Console
  | [] => (.accepted invocation, console)
  | argument :: rest =>
    match ValueOption.ofFlag? argument with
    | some option =>
      match rest with
      | [] => endWithUsage console 2
      | value :: rest =>
        let options := invocation.options
        match option with
        | .variableValues =>
          match objectArgument library console argument value with
          | .error console => (.ended 2, console)
          | .ok variableValues =>
            readArguments library { invocation with options := { options with variableValues } }
              console rest
        | .context =>
          match objectArgument library console argument value with
          | .error console => (.ended 2, console)
          | .ok context =>
            readArguments library { invocation with options := { options with context } }
              console rest
        | .operation =>
          readArguments library
            { invocation with options := { options with operationName := some value } } console rest
        | .logLevel =>
          match Level.ofName? value with
          | none => endWithUsage console 2
          | some threshold => readArguments library invocation { console with threshold } rest
    | none =>
      if argument = utf8 "--parallel" then
        readArguments library
          { invocation with options := { invocation.options with parallel := true } } console rest
      else if argument = utf8 "-h" || argument = utf8 "--help" then endWithUsage console 0
      else if argument.head? = some (ascii '-') then
        endWithUsage (console.log .error [utf8 "unknown option", argument]) 2
      else if invocation.queryFile.isEmpty then
        readArguments library { invocation with queryFile := argument } console rest
      else endWithUsage console 2

/-- Reads the arguments of a run. Each of them ends before its first NUL. -/
def accept (library : Json.Library) (console : Console) (arguments : List Bytes) :
    Verdict × Console :=
  readArguments library ⟨.plain, []⟩ console (arguments.map untilNul)

/-! ## §3 Sources -/

/-- What comes of reading something that was opened. -/
inductive Contents where
  /-- All of the text, up to its end. -/
  | whole (text : Bytes)
  /-- The text up to where reading failed, as it does at once on a directory. -/
  | broken (front : Bytes)

/-- What was read. That reading failed is not told. -/
def Contents.read : Contents → Bytes
  | .whole text => text
  | .broken front => front

/-- The contents of the query's source: those of the file, unless it cannot be opened,
or of the standard input. -/
def querySource (invocation : Invocation) (stdin : Contents) (file : Bytes → Option Contents) :
    Option Contents :=
  if invocation.queryFile.isEmpty then some stdin else file invocation.queryFile

/-! ## §4 Runs -/

/-- How a run ends: its status, the response if a query was answered, and the
console with all that was logged before the response. -/
structure Ending where
  status : Nat
  response : Option Value
  console : Console

/-- The status of an answered query: whether its text was refused is told by
the response. -/
def statusOf (response : Value) : Nat :=
  if (response.member (utf8 "data")).isNull && (response.member (utf8 "errors")).size != 0 then 1
  else 0

/-- Answers a query. -/
def answer (library : Json.Library) (options : RequestOptions) (query : Bytes) :
    ExceptT BuildFailure Host (Except Refusal Value) := do
  let schema ← (definitions library).build
  ExceptT.lift (Request.execute (some schema) options query).run

/-- Ends the run of an accepted invocation, given the contents of the query's source
unless it cannot be opened. What was read is the query, be it all there is or not. -/
def conclude (library : Json.Library) (invocation : Invocation) (console : Console)
    (source : Option Contents) : Ending :=
  match source with
  | none => ⟨2, none, console.log .error [utf8 "cannot open", invocation.queryFile]⟩
  | some contents =>
    let (result, session) :=
      ((answer library invocation.options contents.read).run).run ⟨console, Catalogue.initial⟩
    match result with
    | .ok (.ok response) => ⟨statusOf response, some response, session.console⟩
    | .ok (.error refusal) => ⟨2, none, session.console.log .error [refusal.message]⟩
    | .error (.inconsistent problem) =>
      ⟨2, none, session.console.log .error [utf8 "schema:", problem.message]⟩
    | .error (.aborted _) => ⟨2, none, session.console⟩

/-- A whole run. -/
def perform (library : Json.Library) (console : Console) (arguments : List Bytes)
    (stdin : Contents) (file : Bytes → Option Contents) : Ending :=
  match accept library console arguments with
  | (.ended status, console) => ⟨status, none, console⟩
  | (.accepted invocation, console) =>
    conclude library invocation console (querySource invocation stdin file)

/-! ## §5 Programs -/

/-- The steps of a file name, between its slashes. -/
def nameSteps (name : Bytes) : List Bytes := name.splitOn (ascii '/')

/-- The name is that of a directory wherever it is used: its steps go nowhere but up. -/
def isDirectoryName (name : Bytes) : Bool :=
  !name.isEmpty && (nameSteps name).all fun step =>
    step.isEmpty || step = utf8 "." || step = utf8 ".."

/-- A run with the stand-in for a library, given the text of the standard input and of the
files that can be read. Directories are opened, but nothing is read from them. -/
def run (console : Console) (arguments : List Bytes) (stdin : Bytes)
    (file : Bytes → Option Bytes) : Ending :=
  perform .standIn console arguments (.whole stdin) fun name =>
    if isDirectoryName name then some (.broken []) else (file name).map .whole

end GraphQL.Things
