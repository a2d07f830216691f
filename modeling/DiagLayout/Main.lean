import DiagLayout.Command
import DiagLayout.Text.Utf8

/-!
# The program

Reads the command line, the environment and the inputs, runs the command and writes what it leaves
behind.
-/

namespace DiagLayout

/-- How the program is called. -/
def usageLine : String :=
  "usage: spewfmt [-h] [-w WIDTH] [-i INDENT] [--fold LEVEL] " ++
  "[--compiler \x7bany,clang,gcc\x7d] [--json] " ++
  "[--log-level \x7bDEBUG,INFO,WARNING,ERROR\x7d] [files ...]"

/-- The variables of the environment that the program looks at. -/
def readEnvironment : IO Environment := do
  let names := [Config.widthVariable, Config.indentVariable]
  let values ← names.mapM fun name => do
    let value ← IO.getEnv name
    return value.map fun v => (name, v.toList)
  return values.filterMap id

/-- Why a file cannot be read. The code 21 says that it is a directory. -/
def readFault (path : Text) (e : IO.Error) : Fault :=
  match e with
  | .inappropriateType _ code _ => if code = 21 then .isDirectory path else .notDirectory path
  | .invalidArgument .. => if path.contains '\x00' then .nullInPath else .nameTooLong path
  | _ => .missingFile path

/-- The texts of the files at the paths, or why they cannot be read. -/
def readFiles (paths : List Text) : IO (List (Text × Except Fault Text)) :=
  paths.mapM fun path => do
    try
      let bytes ← IO.FS.readBinFile (String.ofList path)
      return (path, .ok (Text.ofBytes bytes.toList))
    catch e => return (path, .error (readFault path e))

/-- The standard input, if one of the inputs is. -/
def readStandardInput (a : Arguments) : IO Text := do
  if a.files.isEmpty || a.files.contains ['-'] then
    let bytes ← (← IO.getStdin).readBinToEnd
    return Text.ofBytes bytes.toList
  else return []

/-- Writes what a command leaves behind and gives the exit code. -/
def finish (o : Command.Outcome) : IO UInt32 := do
  IO.print (String.ofList o.output)
  IO.eprint o.log.written
  match o.status with
  | .ok code => return code.toUInt32
  | .error f => do
    IO.eprintln f.message
    return 1

end DiagLayout

open DiagLayout in
/-- Lays out compiler output. -/
def main (words : List String) : IO UInt32 := do
  match Arguments.read (words.map String.toList) with
  | .error refusal => do
    (if refusal = .help then IO.println else IO.eprintln) usageLine
    return refusal.exitCode.toUInt32
  | .ok a => do
    let environment ← readEnvironment
    match Command.configure a environment with
    | .error _ =>
      finish (Command.run a ⟨environment, [], fun path => .error (.missingFile path)⟩)
    | .ok _ => do
      let files ← readFiles (a.files.filter (· ≠ ['-']))
      let standardInput ← readStandardInput a
      finish (Command.run a ⟨environment, standardInput, fun path =>
        (files.lookup path).getD (.error (.missingFile path))⟩)
