/-
GraphQL.Main — the program: arguments, files and streams around a run.
-/
import GraphQL.Things.Command

namespace GraphQL

/-- The bytes of a byte array. -/
def bytesOf (bytes : ByteArray) : Bytes := bytes.data.toList

/-- Writes bytes to a stream. -/
def writeBytes (stream : IO.FS.Stream) (text : Bytes) : IO Unit := do
  stream.write ⟨text.toArray⟩
  stream.flush

/-- Two decimal digits or more. -/
def twoDigits (n : Nat) : Bytes := if n < 10 then ascii '0' :: decimal n else decimal n

/-- A time in milliseconds as hours, minutes, seconds and thousandths. -/
def clockText (milliseconds : Nat) : Bytes :=
  let seconds := milliseconds / 1000
  let thousandths := milliseconds % 1000
  joined (utf8 ":") [twoDigits (seconds / 3600 % 24), twoDigits (seconds / 60 % 60),
      twoDigits (seconds % 60)]
    ++ utf8 "." ++ (if thousandths < 100 then utf8 "0" else []) ++ twoDigits thousandths

/-- Everything that can be read from a stream, up to its end or a failure. -/
partial def readAll (stream : IO.FS.Stream) (before : ByteArray) : IO Things.Contents := do
  match ← (stream.read 65536).toBaseIO with
  | .error _ => return .broken (bytesOf before)
  | .ok chunk =>
    if chunk.isEmpty then return .whole (bytesOf before) else readAll stream (before ++ chunk)

/-- The contents of the query's source, unless its file cannot be opened. -/
def readSource (invocation : Things.Invocation) : IO (Option Things.Contents) := do
  if invocation.queryFile.isEmpty then
    return some (← readAll (← IO.getStdin) .empty)
  else
    match String.fromUTF8? ⟨invocation.queryFile.toArray⟩ with
    | none => return none
    | some name =>
      match ← (IO.FS.Handle.mk name .read).toBaseIO with
      | .error _ => return none
      | .ok file => return some (← readAll (.ofHandle file) .empty)

/-- Prints how a run ended, and gives its status. -/
def finish (ending : Things.Ending) : IO UInt32 := do
  let response := match ending.response with
    | none => []
    | some response => Json.indented response ++ utf8 "\n"
  writeBytes (← IO.getStderr) ending.console.stderr
  writeBytes (← IO.getStdout) (ending.console.stdout ++ response)
  return UInt32.ofNat ending.status

/-- The threshold that the environment asks for. The time stamp of log lines is the
reading of the machine's clock when the run begins. -/
def initialConsole : IO Console := do
  let setting ← IO.getEnv "GQLPP_LOG_LEVEL"
  let stamp := clockText (← IO.monoMsNow)
  return .blank stamp (Level.ofSetting (setting.map utf8))

end GraphQL

open GraphQL

/-- Answers a query over the catalogue of things. -/
def main (arguments : List String) : IO UInt32 := do
  match Things.accept .standIn (← initialConsole) (arguments.map utf8) with
  | (.ended status, console) => finish ⟨status, none, console⟩
  | (.accepted invocation, console) =>
    let source ← readSource invocation
    finish (Things.conclude .standIn invocation console source)
