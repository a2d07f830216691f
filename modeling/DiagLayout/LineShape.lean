import DiagLayout.Text.Basic
import DiagLayout.Text.Blank
import DiagLayout.Text.Digit

/-!
# Shapes of diagnostic lines

A `LineShape` is a test that a line passes or not; any test is one. Compilers start a diagnostic
with the file, perhaps a line and a column in it, and a few words. A compiler family has a list of
shapes, each of which looks for such a start; what comes later in the line is free.
-/

namespace DiagLayout

/-- A shape that a diagnostic line may have. -/
structure LineShape where
  /-- The line has the shape. -/
  fits : Text → Bool

namespace LineShape

/-- The rest after a file name and its colon. The name does not start with white space. -/
def afterFile? : Text → Option Text
  | [] => none
  | c :: t =>
    if Text.isBlank c || c == ':' then none
    else Text.after? ":".toList (t.dropWhile fun d => d != ':' && d != '\n')

/-- The rest after decimal digits, at least one. -/
def afterNumber? : Text → Option Text
  | [] => none
  | c :: t => if Text.isDigit c then some (t.dropWhile Text.isDigit) else none

/-- The rest after a colon and decimal digits, if they are there. -/
def afterColumn (t : Text) : Text :=
  ((Text.after? ":".toList t).bind afterNumber?).getD t

/-- The rest after a line, perhaps a column, and a colon. -/
def afterPlace? (t : Text) : Option Text := do
  let t ← afterNumber? t
  Text.after? ":".toList (afterColumn t)

/-- The rest after spaces, at least one. -/
def afterSpaces? (t : Text) : Option Text :=
  (Text.after? " ".toList t).map (·.dropWhile (· == ' '))

/-- How grave a diagnostic is. -/
def severities : List Text :=
  ["fatal error".toList, "error".toList, "warning".toList, "note".toList]

/-- What a compiler was doing. -/
def activities : List Text :=
  ["In instantiation".toList, "In substitution".toList, "In member function".toList,
   "In static member function".toList, "In function".toList, "In constructor".toList,
   "In destructor".toList, "In lambda function".toList, "required from".toList,
   "required by".toList, "recursively required".toList]

/-- The rest after a severity and its colon. -/
def afterSeverity? (t : Text) : Option Text := do
  let t ← Text.afterAny? severities t
  Text.after? ":".toList t

/-- The rest after file and line, perhaps a column, and a severity. -/
def afterReport? (t : Text) : Option Text := do
  let t ← afterFile? t
  let t ← afterPlace? t
  let t ← afterSpaces? t
  afterSeverity? t

/-- The rest after the file, perhaps a line and a column, and words that say where the compiler
was. -/
def afterContext? (t : Text) : Option Text := do
  let t ← afterFile? t
  let t ← afterSpaces? ((afterPlace? t).getD t)
  Text.afterAny? activities t

/-- The rest after file, line and column, and a severity after a single space. -/
def afterColumnReport? (t : Text) : Option Text := do
  let t ← afterFile? t
  let t ← afterNumber? t
  let t ← Text.after? ":".toList t
  let t ← afterNumber? t
  let t ← Text.after? ": ".toList t
  afterSeverity? t

/-- Lines with a start after which there is a rest. -/
def startingWith (rest? : Text → Option Text) : LineShape := ⟨fun line => (rest? line).isSome⟩

/-- A diagnostic at a place. -/
def report : LineShape := startingWith afterReport?

/-- Where the compiler was when it met what follows. -/
def context : LineShape := startingWith afterContext?

/-- A diagnostic at a line and a column. -/
def columnReport : LineShape := startingWith afterColumnReport?

end LineShape

/-- The compilers whose diagnostics are known. -/
inductive Family where
  | any
  | clang
  | gcc
  deriving DecidableEq, Repr, Inhabited

namespace Family

/-- The family of a name. -/
def ofName? (name : Text) : Option Family :=
  if name = "any".toList then some any
  else if name = "clang".toList then some clang
  else if name = "gcc".toList then some gcc
  else none

/-- The shapes of the diagnostics of a family. -/
def shapes : Family → List LineShape
  | any => [.report, .context, .columnReport]
  | clang => [.columnReport]
  | gcc => [.report, .context]

end Family

end DiagLayout
