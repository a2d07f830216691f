import DiagLayout.Text.Quoted

/-!
# Faults

Everything that can go wrong is a value of one type, `Fault`, and `Fault.message` is its wording.

* Faults of a request: a fold level, a setting, a variable, a position that cannot be folded.
  `Fault.isRequest` tells them.
* Faults of the surroundings: a path that leads to no file, an option left blank.
* Faults of a text: brackets that do not close, a range that reaches past the end.
* Faults of a caller: events in the wrong order, a cursor moved back.
-/

namespace DiagLayout

/-- A position where nothing can be folded, the reason, and what could be tried instead. -/
structure FoldRefusal where
  position : Int
  reason : String
  hint : Option String
  deriving DecidableEq, Repr

/-- The reason after the position; a hint that says something goes on a line of its own. -/
def FoldRefusal.message (r : FoldRefusal) : String :=
  let base := toString r.position ++ ": " ++ r.reason
  match r.hint with
  | none => base
  | some hint => if hint.isEmpty then base else base ++ "\nhint: " ++ hint

/-- What can go wrong. -/
inductive Fault where
  /-- A range reaches past the end of the text, and the walk over it got there. -/
  | pastEnd
  /-- A group is to open with an empty text. -/
  | emptyOpening
  /-- The length of a span that ends before it starts. -/
  | negativeLength
  /-- The group opened at `opener` does not close inside the range. -/
  | unbalanced (opener start stop : Nat)
  /-- The printer has no frame left. -/
  | noFrame
  /-- A group is left that was not entered. -/
  | strayExit
  /-- The events ended inside `n` groups. -/
  | openGroups (n : Int)
  /-- An event that no printer knows. -/
  | unknownEvent (label : Text)
  /-- A closer with no opener before it. -/
  | unmatchedCloser (position : Nat)
  /-- An opener with no closer after it. -/
  | unclosedGroup (position : Nat)
  /-- A fold level below one. -/
  | foldLevel (level : Int)
  /-- The cursor of a session would not move on. -/
  | cursorBack (cursor position : Int)
  /-- Nothing to fold at a position. -/
  | notFoldable (refusal : FoldRefusal)
  /-- A fill width that is not positive. -/
  | badWidth (n : Int)
  /-- An indent unit that is not positive. -/
  | badIndent (n : Int)
  /-- No compiler family has this name. -/
  | unknownFamily (name : Text)
  /-- A variable of the environment does not hold an integer. -/
  | notAnInteger (name : String) (value : Text)
  /-- The path leads to nothing. -/
  | missingFile (path : Text)
  /-- The path leads to a directory. -/
  | isDirectory (path : Text)
  /-- The path goes on behind a file. -/
  | notDirectory (path : Text)
  /-- The path, or a name in it, is too long. -/
  | nameTooLong (path : Text)
  /-- A path with a null character. -/
  | nullInPath
  /-- A width or an indent was asked for and left blank. -/
  | blankSize
  /-- A fold level was asked for and left blank. -/
  | blankFoldLevel
  /-- A compiler family was asked for and left blank. -/
  | blankFamily
  /-- A level of the log was asked for and left blank. -/
  | blankLogLevel
  deriving DecidableEq, Repr

namespace Fault

/-- The wording of a fault. -/
def message : Fault → String
  | pastEnd => "tuple index out of range"
  | emptyOpening => "string index out of range"
  | negativeLength => "__len__() should return >= 0"
  | unbalanced opener start stop =>
    s!"unbalanced group at offset {opener} in confirmed span {start}..{stop}"
  | noFrame => "printer frame stack is empty"
  | strayExit => "group closed with no open frame"
  | openGroups n => s!"span ended inside {n} open group(s)"
  | unknownEvent label => "unknown printer event: " ++ Text.quoted label
  | unmatchedCloser position => s!"unmatched closer at offset {position}"
  | unclosedGroup position => s!"unclosed group at offset {position}"
  | foldLevel level => s!"fold level must be at least 1, got {level}"
  | cursorBack cursor position =>
    s!"diagnostic cursor would move back from {cursor} to {position}"
  | notFoldable refusal => refusal.message
  | badWidth n => s!"fill_width must be positive, got {n}"
  | badIndent n => s!"indent_unit must be positive, got {n}"
  | unknownFamily name =>
    "unknown compiler family " ++ Text.quoted name ++ " (expected one of: any, clang, gcc)"
  | notAnInteger name value => name ++ " must be an integer, got " ++ Text.quoted value
  | missingFile path => "[Errno 2] No such file or directory: " ++ Text.quoted path
  | isDirectory path => "[Errno 21] Is a directory: " ++ Text.quoted path
  | notDirectory path => "[Errno 20] Not a directory: " ++ Text.quoted path
  | nameTooLong path => "[Errno 36] File name too long: " ++ Text.quoted path
  | nullInPath => "embedded null byte"
  | blankSize => "'<=' not supported between instances of 'list' and 'int'"
  | blankFoldLevel => "'<' not supported between instances of 'list' and 'int'"
  | blankFamily => "unhashable type: 'list'"
  | blankLogLevel => "attribute name must be string, not 'list'"

/-- The fault lies in what was asked for, so that it is reported and nothing more. -/
def isRequest : Fault → Bool
  | negativeLength | foldLevel _ | notFoldable _ | badWidth _ | badIndent _
  | unknownFamily _ | notAnInteger .. => true
  | _ => false

end Fault

end DiagLayout
