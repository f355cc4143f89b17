/-
GraphQL.Log.Level — log levels, and monads that accept log entries.
-/
import GraphQL.Text.Bytes

namespace GraphQL

/-- The weight of a log entry; as a threshold, the least weight that is shown.
Five levels have names, and any number is a threshold. -/
structure Level where
  rank : Int
deriving DecidableEq, Inhabited

namespace Level

/-- What helps to follow a run. -/
def debug : Level := ⟨0⟩

/-- What is worth knowing about a run. -/
def info : Level := ⟨1⟩

/-- What may be wrong. -/
def warn : Level := ⟨2⟩

/-- What went wrong. -/
def error : Level := ⟨3⟩

/-- The threshold that no entry reaches. -/
def silent : Level := ⟨4⟩

/-- The level of a name. -/
def ofName? (name : Bytes) : Option Level :=
  if name = utf8 "debug" then some .debug
  else if name = utf8 "info" then some .info
  else if name = utf8 "warn" then some .warn
  else if name = utf8 "error" then some .error
  else if name = utf8 "silent" then some .silent
  else none

/-- The threshold that an environment setting asks for: warnings, unless it
names another level. A setting ends before its first NUL. -/
def ofSetting (setting : Option Bytes) : Level :=
  ((setting.map untilNul).bind ofName?).getD .warn

/-- Entries of this level are shown under a threshold. -/
def shownAt (level threshold : Level) : Bool := threshold.rank ≤ level.rank

end Level

/-- A monad that accepts log entries: a level, and the words of the entry. -/
class MonadLog (m : Type → Type) where
  log : Level → List Bytes → m Unit

/-- Where nobody listens, log entries are dropped. -/
instance : MonadLog Id where
  log _ _ := pure ()

/-- Entries logged before a failure stay logged. -/
instance {ε : Type} {m : Type → Type} [Monad m] [MonadLog m] : MonadLog (ExceptT ε m) where
  log level words := ExceptT.lift (MonadLog.log level words)

end GraphQL
