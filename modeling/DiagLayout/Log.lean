import DiagLayout.Line

/-!
# The log

Remarks have a level, and only those of at least the level that was set up are written. Until a
level is set up, nothing is.
-/

namespace DiagLayout

/-- How important a remark is. -/
inductive Level where
  | debug
  | info
  | warning
  | error
  deriving DecidableEq, Repr, Inhabited

namespace Level

/-- The place of a level in the order of importance. -/
def rank : Level → Nat
  | debug => 0
  | info => 1
  | warning => 2
  | error => 3

/-- The name of a level. -/
def name : Level → String
  | debug => "DEBUG"
  | info => "INFO"
  | warning => "WARNING"
  | error => "ERROR"

/-- All levels. -/
def all : List Level := [debug, info, warning, error]

/-- The level of a name. -/
def ofName? (t : Text) : Option Level := all.find? fun level => level.name.toList = t

end Level

/-- A remark. -/
structure Entry where
  level : Level
  message : String
  deriving DecidableEq, Repr, Inhabited

/-- The remark as it is written. -/
def Entry.format (e : Entry) : String := e.level.name ++ ": " ++ e.message ++ "\n"

/-- The level set up, if any, and what has been written. -/
structure Log where
  threshold : Option Level := none
  written : String := ""
  deriving DecidableEq, Repr, Inhabited

namespace Log

/-- The log with its level set up. -/
def setup (log : Log) (level : Level) : Log := { log with threshold := some level }

/-- The remark is written. -/
def admits (log : Log) (e : Entry) : Bool :=
  log.threshold.any fun level => level.rank ≤ e.level.rank

/-- The log after a remark. -/
def emit (log : Log) (e : Entry) : Log :=
  if log.admits e then { log with written := log.written ++ e.format } else log

/-- The log after remarks. -/
def emitAll (log : Log) (es : List Entry) : Log := es.foldl emit log

/-- The log after a message to the user, which is written whatever the level. -/
def report (log : Log) (f : Fault) : Log :=
  { log with written := log.written ++ "spewfmt: " ++ f.message ++ "\n" }

/-- The name that all names in the log start with. -/
def baseName : Text := "spewfmt".toList

/-- The full name of a part of the program. -/
def fullName : Option Text → Text
  | none | some [] => baseName
  | some name =>
    if name = baseName ∨ Text.startsWith name (baseName ++ ['.']) then name
    else baseName ++ '.' :: name

end Log

/-- The remark about a note. -/
def Note.entry (n : Note) : Entry where
  level := match n with
    | unparsed .. => .info
    | leftOver .. => .warning
  message := n.quote.format ++ ": " ++ n.message

/-- The remarks about a line: its notes, and how many expressions it has. -/
def LineReport.entries (r : LineReport) : List Entry :=
  r.notes.map Note.entry ++
    [⟨.debug, "line " ++ r.span.format ++ ": " ++ toString r.expressions.length ++
      " expression(s)"⟩]

end DiagLayout
