import DiagLayout.Line
import DiagLayout.Overlay

/-!
# Sessions

A session follows one run of a compiler. Output is fed as it comes, in pieces of any size; every
line that a piece completes is processed once. The expressions found so far can be folded by a
position inside, and the settings can be changed for all lines at once. The text is joined when it
is asked for, and is then at hand until more output comes.

A session is changed in place, and a fault leaves behind what was done before it:

* `SessionM.read`: the text;
* `SessionM.feed`: more output;
* `SessionM.fold`: the expression around a position, folded at a level;
* `SessionM.reconfigure`: all lines again under other settings, fold levels kept by quote.

`Session.feed`, `Session.fold` and `Session.reconfigure` give the session after the change together
with its result, or the fault. A `Request` is any of these changes; `Session.serve` is the session
that it leaves behind and `Session.answer` its result.
-/

namespace DiagLayout

/-- The lines that a text completes, without their line feeds, and the rest after the last line
feed. -/
def splitLines : Text → List Text × Text
  | [] => ([], [])
  | c :: t =>
    match splitLines t with
    | (lines, rest) =>
      if c = '\n' then ([] :: lines, rest)
      else match lines with
        | [] => ([], c :: rest)
        | line :: lines => ((c :: line) :: lines, rest)

/-- The state of one run of a compiler. -/
structure Session where
  config : Config := {}
  /-- The offset up to which output has been processed. -/
  cursor : Int := 0
  /-- The expressions found, in the order of the text. -/
  expressions : List Expression := []
  /-- The complete lines, without their line feeds. -/
  lines : List Text := []
  /-- The output after the last complete line, in the pieces in which it came. -/
  tail : List Text := []
  /-- The whole text, if it was asked for after the last output. -/
  joined : Option Text := none
  deriving Inhabited

namespace Session

/-- A session with nothing fed yet. -/
def new (config : Config) : Session := { config }

/-- The lines and the tail in one piece. -/
def output (s : Session) : Text := s.lines.flatMap (· ++ ['\n']) ++ s.tail.flatten

/-- The text as it is read: the one at hand, or else all output joined. -/
def text (s : Session) : Text := s.joined.getD s.output

/-- The session as it was before anything was fed. -/
def reset (s : Session) : Session := new s.config

/-- The session with its cursor moved on to a later offset. -/
def moveCursor (s : Session) (position : Int) : Except Fault Session :=
  if position ≤ s.cursor then .error (.cursorBack s.cursor position)
  else .ok { s with cursor := position }

/-- The position lies in the quote or on one of its marks. -/
def covers (position : Int) (e : Expression) : Bool :=
  e.quote.start - 1 ≤ position && position ≤ e.quote.stop

/-- The refusal of a position outside all expressions. -/
def refusal (position : Int) : FoldRefusal where
  position
  reason := "not inside a formatted quoted expression"
  hint := some ("only quotes on lines longer than the fill width that parse as a type" ++
    " or function can be folded")

/-- The number of the expression around a position. -/
def indexAt (s : Session) (position : Int) : Except Fault Nat :=
  match s.expressions.findIdx? (covers position) with
  | some i => .ok i
  | none => .error (.notFoldable (refusal position))

/-- The level at which the quote is folded. -/
def levelOf (s : Session) (quote : Span) : Option Int :=
  (s.expressions.reverse.find? fun e => e.quote == quote && e.fold.level.isSome).bind
    (·.fold.level)

end Session

/-- The layout of an expression, made again from the text that it stands in. -/
def Expression.remake (e : Expression) (text : Text) (config : Config) (level : Option Int) :
    Except Fault Expression :=
  make (e.quote.slice text) e.found e.quote e.column config level

/-! ### A session that is changed in place -/

/-- What is done with a session. -/
abbrev SessionM := EStateM Fault Session

namespace SessionM

/-- The session after a change and its result, or the fault that ended it. -/
def outcome {α : Type} (op : SessionM α) (s : Session) : Except Fault (Session × α) :=
  match op.run s with
  | .ok a next => .ok (next, a)
  | .error f _ => .error f

/-- The session that a change leaves behind, be it refused or not. -/
def left {α : Type} (op : SessionM α) (s : Session) : Session :=
  match op.run s with
  | .ok _ next => next
  | .error _ next => next

/-- Reads the text. It is joined if it is not at hand. -/
def read : SessionM Text := do
  let s ← get
  match s.joined with
  | some t => return t
  | none =>
    set { s with joined := some s.output }
    return s.output

/-- Goes back to a session with nothing fed yet. -/
def reset : SessionM Unit := modify Session.reset

/-- Moves the cursor on to a later offset. -/
def moveCursor (position : Int) : SessionM Unit := do
  set (← ofExcept ((← get).moveCursor position))

/-! #### Feeding -/

/-- Takes one more complete line. Carriage returns at its end do not belong to it. -/
def acceptLine (line : Text) : SessionM LineReport := do
  let s ← get
  let r ← ofExcept (examineLine (line.trimEnd '\r') s.cursor s.config)
  modify fun s => { s with lines := s.lines ++ [line] }
  moveCursor (s.cursor + line.length + 1)
  modify fun s => { s with expressions := s.expressions ++ r.expressions }
  return r

/-- Takes more complete lines. -/
def acceptLines : List Text → SessionM (List LineReport)
  | [] => return []
  | line :: lines => do
    let r ← acceptLine line
    let rs ← acceptLines lines
    return r :: rs

/-- Keeps output that completes no line. -/
def keep (t : Text) : SessionM Unit := do
  unless t.isEmpty do
    modify fun s => { s with tail := s.tail ++ [t] }

/-- Takes more output, and gives the results of the lines that it completes. The text at hand is no
longer the whole text. -/
def feed (chunk : Text) : SessionM (List LineReport) := do
  modify fun s => { s with joined := none }
  if '\n' ∈ chunk then
    let (lines, rest) := splitLines ((← get).tail.flatten ++ chunk)
    modify fun s => { s with tail := [] }
    let rs ← acceptLines lines
    keep rest
    return rs
  else
    keep chunk
    return []

/-! #### Folding -/

/-- The number of the expression around a position. -/
def find (position : Int) : SessionM Nat := do
  ofExcept ((← get).indexAt position)

/-- Makes the layout of an expression again. The text is read first. -/
def remake (config : Config) (level : Option Int) (e : Expression) : SessionM Expression := do
  ofExcept (e.remake (← read) config level)

/-- Folds the expression around a position at a level. -/
def fold (position : Int) (level : Option Int) : SessionM Expression := do
  let i ← find position
  let s ← get
  match s.expressions[i]? with
  | none => throw (.notFoldable (Session.refusal position))
  | some e =>
    let folded ← remake s.config level e
    modify fun s => { s with expressions := s.expressions.set i folded }
    return folded

/-! #### Other settings -/

/-- The expression at the level at which its quote is folded in the session. -/
def refold (config : Config) (e : Expression) : SessionM Expression := do
  match (← get).levelOf e.quote with
  | none => return e
  | some level => remake config (some level) e

/-- The expressions of complete lines under other settings, the first line being at `base`. -/
def replay (config : Config) (base : Int) : List Text → SessionM (List Expression)
  | [] => return []
  | line :: lines => do
    let r ← ofExcept (examineLine (line.trimEnd '\r') base config)
    let here ← r.expressions.mapM (refold config)
    let rest ← replay config (base + line.length + 1) lines
    return here ++ rest

/-- Changes the settings, and gives the expressions under the new ones. -/
def reconfigure (config : Config) : SessionM (List Expression) := do
  let expressions ← replay config 0 (← get).lines
  modify fun s => { s with config, expressions }
  return expressions

end SessionM

/-! ### Requests -/

/-- What can be asked of a session. -/
inductive Request where
  | feed (chunk : Text)
  | find (position : Int)
  | fold (position : Int) (level : Option Int)
  | reconfigure (config : Config)
  | reset
  | read

/-- What a request gives. -/
inductive Answer where
  | reports (rs : List LineReport)
  | index (i : Nat)
  | expression (e : Expression)
  | expressions (es : List Expression)
  | done
  | text (t : Text)
  deriving DecidableEq, Repr

/-- Does what is asked. -/
def Request.perform : Request → SessionM Answer
  | .feed chunk => .reports <$> SessionM.feed chunk
  | .find position => .index <$> SessionM.find position
  | .fold position level => .expression <$> SessionM.fold position level
  | .reconfigure config => .expressions <$> SessionM.reconfigure config
  | .reset => (fun _ => .done) <$> SessionM.reset
  | .read => .text <$> SessionM.read

namespace Session

/-- The session that a request leaves behind. -/
def serve (s : Session) (request : Request) : Session := request.perform.left s

/-- What a request gives in the session. -/
def answer (s : Session) (request : Request) : Except Fault Answer :=
  (request.perform.outcome s).map Prod.snd

/-- The session after more output, and the results of the lines that it completes. -/
def feed (s : Session) (chunk : Text) : Except Fault (Session × List LineReport) :=
  (SessionM.feed chunk).outcome s

/-- The session with the expression around a position folded at a level, and that expression. -/
def fold (s : Session) (position : Int) (level : Option Int) :
    Except Fault (Session × Expression) :=
  (SessionM.fold position level).outcome s

/-- The session under other settings, and its expressions. -/
def reconfigure (s : Session) (config : Config) : Except Fault (Session × List Expression) :=
  (SessionM.reconfigure config).outcome s

/-- The session under other settings. -/
def withConfig (s : Session) (config : Config) : Except Fault Session :=
  (s.reconfigure config).map Prod.fst

/-! ### The result -/

/-- The instructions of all expressions. -/
def instructions (s : Session) : List Instruction := s.expressions.flatMap (·.instructions)

/-- The hidden spans of all expressions. -/
def placeholders (s : Session) : List Placeholder := s.expressions.flatMap (·.fold.placeholders)

/-- The text with all expressions laid out. -/
def rendered (s : Session) : Text := overlay s.text s.instructions s.placeholders

end Session

end DiagLayout
