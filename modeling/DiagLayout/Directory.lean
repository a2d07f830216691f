import DiagLayout.Fault

/-!
# Directories

A command reads its inputs from files below a working directory. A path is a sequence of steps
between slashes, taken one after the other: a name leads to a file or to a directory of that name,
two dots lead back, and a step that is empty or a single dot leads nowhere else. Outside the working
directory nothing is found but the directories that a path goes back through.

* `Directory.find`: what is at a place below the working directory;
* `Directory.follow`: the steps of a path from a place on;
* `Directory.read`: the text of the file that a path leads to, or why there is none.
-/

namespace DiagLayout

/-! ### Paths -/

/-- The steps of a path between its slashes. -/
def pathSteps : Text → List Text
  | [] => [[]]
  | c :: t =>
    if c = '/' then [] :: pathSteps t
    else match pathSteps t with
      | [] => [[c]]
      | step :: steps => (c :: step) :: steps

/-- The step stays where it is. -/
def staysHere (step : Text) : Bool := step == [] || step == ['.']

/-- The step leads back. -/
def leadsBack (step : Text) : Bool := step == ['.', '.']

/-- The number of bytes of a text. -/
def byteLength (t : Text) : Nat := t.foldl (fun n c => n + c.utf8Size) 0

/-- The most bytes that a name may have. -/
def maxNameBytes : Nat := 255

/-- The most bytes that a path may have. -/
def maxPathBytes : Nat := 4095

/-! ### Places -/

/-- Files below a working directory, each with the names that lead to it. -/
structure Directory where
  files : List (List Text × Text)
  deriving DecidableEq, Repr, Inhabited

/-- What is at a place. -/
inductive Node where
  | file (content : Text)
  | directory
  | missing
  deriving DecidableEq, Repr, Inhabited

/-- A directory: one below the working directory, or one outside it. -/
inductive Place where
  | inside (names : List Text)
  | outside
  deriving DecidableEq, Repr, Inhabited

/-- The directory that a directory is in. -/
def Place.parent : Place → Place
  | inside [] => outside
  | inside (name :: names) => inside (name :: names).dropLast
  | outside => outside

namespace Directory

/-- The directory that holds files at the given paths. -/
def ofPaths (files : List (Text × Text)) : Directory :=
  ⟨files.map fun f => ((pathSteps f.1).filter fun step => !staysHere step, f.2)⟩

/-- What the names lead to from the working directory. Whatever is on the way to a file is a
directory. -/
def find (d : Directory) (names : List Text) : Node :=
  match d.files.lookup names with
  | some content => .file content
  | none =>
    if names.isEmpty || d.files.any (fun f => names.isPrefixOf f.1) then .directory else .missing

/-- The text of the file that the steps lead to from a place on; `path` is the whole path. -/
def follow (d : Directory) (path : Text) : Place → List Text → Except Fault Text
  | _, [] => .error (.isDirectory path)
  | place, step :: steps =>
    if staysHere step then d.follow path place steps
    else if leadsBack step then d.follow path place.parent steps
    else if maxNameBytes < byteLength step then .error (.nameTooLong path)
    else match place with
      | .outside => .error (.missingFile path)
      | .inside names =>
        match d.find (names ++ [step]) with
        | .missing => .error (.missingFile path)
        | .directory => d.follow path (.inside (names ++ [step])) steps
        | .file content => if steps.isEmpty then .ok content else .error (.notDirectory path)

/-- The text of the file that a path leads to. A path that starts with a slash starts outside the
working directory. -/
def read (d : Directory) (path : Text) : Except Fault Text :=
  if path.contains '\x00' then .error .nullInPath
  else if path.isEmpty then .error (.missingFile path)
  else if maxPathBytes < byteLength path then .error (.nameTooLong path)
  else if path.head? = some '/' then d.follow path .outside (pathSteps path)
  else d.follow path (.inside []) (pathSteps path)

end Directory

end DiagLayout
