/-
GraphQL.Log.Console — log lines on two output streams.

  §1 Lines      — the colored form of an entry.
  §2 Consoles   — a threshold and what was written so far.
  §3 Sessions   — a console beside the state of a host.

Debug and info entries go to the standard output, the others to the standard
error stream.
-/
import GraphQL.Log.Level

namespace GraphQL

/-! ## §1 Lines -/

/-- Switches the terminal to a color. -/
def colorCode (code : Bytes) : Bytes := utf8 "\x1b[" ++ code ++ utf8 "m"

/-- The color of a level's lines. -/
def Level.color (level : Level) : Bytes :=
  if level = .debug then colorCode (utf8 "36")
  else if level = .info then colorCode (utf8 "34")
  else if level = .warn then colorCode (utf8 "33")
  else colorCode (utf8 "31")

/-- The name of a level in its lines, padded to equal width. -/
def Level.heading (level : Level) : Bytes :=
  if level = .debug then utf8 "debug "
  else if level = .info then utf8 "info  "
  else if level = .warn then utf8 "warn  "
  else utf8 "error "

/-- A log line: the time stamp in gray, the heading in the level's color and
the words with a space between each two. -/
def logLine (stamp : Bytes) (level : Level) (words : List Bytes) : Bytes :=
  colorCode (utf8 "90") ++ utf8 "[" ++ stamp ++ utf8 "] " ++ level.color ++ utf8 "gqlpp "
    ++ level.heading ++ colorCode (utf8 "0") ++ joined (utf8 " ") words ++ utf8 "\n"

/-! ## §2 Consoles -/

/-- A console: the threshold, the time stamp of its lines, and what was written to
its two streams so far, in parts with the latest first. -/
structure Console where
  threshold : Level
  stamp : Bytes
  printed : List Bytes
  reported : List Bytes
deriving Inhabited

namespace Console

/-- A console on which nothing was written. -/
def blank (stamp : Bytes) (threshold : Level) : Console := ⟨threshold, stamp, [], []⟩

/-- The text on the standard output. -/
def stdout (console : Console) : Bytes := console.printed.reverse.flatten

/-- The text on the standard error stream. -/
def stderr (console : Console) : Bytes := console.reported.reverse.flatten

/-- Writes to the standard output. -/
def print (console : Console) (text : Bytes) : Console :=
  { console with printed := text :: console.printed }

/-- Writes to the standard error stream. -/
def printError (console : Console) (text : Bytes) : Console :=
  { console with reported := text :: console.reported }

/-- Writes an entry, if the threshold lets it pass. -/
def log (console : Console) (level : Level) (words : List Bytes) : Console :=
  if level.shownAt console.threshold then
    if level = .debug || level = .info then console.print (logLine console.stamp level words)
    else console.printError (logLine console.stamp level words)
  else console

end Console

/-! ## §3 Sessions -/

/-- A console and the state of a host. -/
structure Session (σ : Type) where
  console : Console
  state : σ

/-- Computations of a host with state `σ` that can log. -/
abbrev Hosted (σ : Type) := StateM (Session σ)

/-- Entries go to the session's console. -/
instance {σ : Type} : MonadLog (Hosted σ) where
  log level words := modify fun session =>
    { session with console := session.console.log level words }

/-- Changes the host's state and gives a result. -/
def Hosted.update {σ α : Type} (change : σ → α × σ) : Hosted σ α :=
  modifyGet fun session =>
    let (result, state) := change session.state
    (result, { session with state })

end GraphQL
