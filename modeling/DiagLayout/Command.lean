import DiagLayout.Arguments
import DiagLayout.Directory
import DiagLayout.Report

/-!
# The command

The command lays out compiler output: each input is the output of one run of a compiler. Its
settings come from the environment and then from the arguments. All inputs are read before the first
is laid out, and a fault of the request stops at the input where it arises.

* `Command.configure`: the settings;
* `Command.gather`: the texts of the inputs;
* `Command.runInput`: one input alone;
* `Command.run`: the whole command, for given surroundings.
-/

namespace DiagLayout.Command

/-- What a command finds around it: variables, the standard input, and files by their paths. -/
structure Surroundings where
  environment : Environment
  standardInput : Text
  read : Text → Except Fault Text

/-- What a command leaves behind: its output, its log, and its exit code or the fault that ended
it. -/
structure Outcome where
  output : Text := []
  log : Log := {}
  status : Except Fault Nat := .ok 0

/-- The settings that the environment and the arguments ask for. -/
def configure (a : Arguments) (env : Environment) : Except Fault Config := do
  let c ← Config.ofEnvironment env {}
  let family ← a.family.value .any .blankFamily
  let c := c.withShapes family.shapes
  let width ← a.width.value c.width .blankSize
  let c ← c.withWidth width
  let indent ← a.indent.value c.indent .blankSize
  c.withIndent indent

/-! ### Inputs -/

/-- The texts of the named inputs. A dash is the standard input, of which nothing is left after it
has been read once. -/
def gatherNamed (read : Text → Except Fault Text) (standardInput : Text) :
    List Text → Except Fault (List Text)
  | [] => .ok []
  | name :: names =>
    if name = ['-'] then do
      let rest ← gatherNamed read [] names
      .ok (standardInput :: rest)
    else do
      let t ← read name
      let rest ← gatherNamed read standardInput names
      .ok (t :: rest)

/-- The texts of the inputs: those named, or else the standard input. -/
def gather (a : Arguments) (w : Surroundings) : Except Fault (List Text) :=
  gatherNamed w.read w.standardInput (if a.files.isEmpty then [['-']] else a.files)

/-- The text with its last line complete. -/
def completed (t : Text) : Text := if t.getLast? = some '\n' then t else t ++ ['\n']

/-! ### Layout -/

/-- The session with the expression at the quote of `e` folded at a level. -/
def foldAt (level : Int) (s : Session) (e : Expression) : Except Fault Session := do
  let (next, _) ← s.fold e.quote.start (some level)
  .ok next

/-- The session with every expression folded at a level. The walk is over the expressions that were
there before the first fold. -/
def foldAll (s : Session) (level : Int) : Except Fault Session :=
  s.expressions.foldlM (foldAt level) s

/-- What one input gives: remarks for the log, and its output. -/
structure InputResult where
  entries : List Entry
  output : Except Fault Text

/-- The session of one input, folded as the arguments ask. A blank level is a fault once there is
something to fold. -/
def folded (a : Arguments) (s : Session) : Except Fault Session :=
  match a.fold with
  | .absent => .ok s
  | .blank => if s.expressions.isEmpty then .ok s else .error .blankFoldLevel
  | .given level => foldAll s level

/-- The output for a session. -/
def shown (a : Arguments) (s : Session) : Text :=
  if a.json then s.document.pretty 0 ++ ['\n'] else s.rendered

/-- Lays out one input. -/
def runInput (a : Arguments) (config : Config) (t : Text) : InputResult :=
  match (Session.new config).feed (completed t) with
  | .error f => ⟨[], .error f⟩
  | .ok (s, lines) => ⟨lines.flatMap LineReport.entries, (folded a s).map (shown a)⟩

/-- The outcome after a fault. A fault of the request is reported. -/
def Outcome.failed (o : Outcome) (f : Fault) : Outcome :=
  if f.isRequest then { o with log := o.log.report f, status := .ok 2 }
  else { o with status := .error f }

/-- The outcome after further inputs. -/
def runInputs (a : Arguments) (config : Config) (o : Outcome) : List Text → Outcome
  | [] => o
  | t :: ts =>
    let r := runInput a config t
    let logged := { o with log := o.log.emitAll r.entries }
    match r.output with
    | .error f => logged.failed f
    | .ok output => runInputs a config { logged with output := o.output ++ output } ts

/-- The outcome before anything is done, with the log set up for a level. -/
def Outcome.initial (level : Level) : Outcome := { log := ({} : Log).setup level }

/-- The command with a log that is set up for a level. -/
def runLogged (a : Arguments) (w : Surroundings) (level : Level) : Outcome :=
  match configure a w.environment with
  | .error f => (Outcome.initial level).failed f
  | .ok config =>
    match gather a w with
    | .error f => (Outcome.initial level).failed f
    | .ok texts => runInputs a config (Outcome.initial level) texts

/-- The command with the given arguments in the given surroundings. -/
def run (a : Arguments) (w : Surroundings) : Outcome :=
  match a.level.value .warning .blankLogLevel with
  | .error f => { status := .error f }
  | .ok level => runLogged a w level

end DiagLayout.Command
