import DiagLayout.Log
import DiagLayout.Text.Integer

/-!
# Arguments of the command line

The words of a command line are options, values of options, and the names of the inputs. An option
is given by its long name or an unambiguous start of it, some also by a letter; its value follows as
the next word, after an equals sign, or right after the letter. A word that looks like a negative
number or that has a space in it is no option. After two dashes no word is. Two dashes that are
attached to an option as its value leave the option blank.

The names of the inputs stand together: names after a further option are refused.
-/

namespace DiagLayout

/-- What a command line says about an option with a value. -/
inductive Choice (α : Type) where
  /-- The option is not there. -/
  | absent
  /-- The option is there, with two dashes for its value. -/
  | blank
  /-- The option has this value. -/
  | given (a : α)
  deriving DecidableEq, Repr, Inhabited

/-- The value of an option, or the default if the option is not there. One that was left blank is a
fault. -/
def Choice.value {α : Type} (default : α) (fault : Fault) : Choice α → Except Fault α
  | absent => .ok default
  | blank => .error fault
  | given a => .ok a

/-- What a command line asks for. -/
structure Arguments where
  files : List Text := []
  width : Choice Int := .absent
  indent : Choice Int := .absent
  fold : Choice Int := .absent
  family : Choice Family := .absent
  json : Bool := false
  level : Choice Level := .absent
  deriving DecidableEq, Repr, Inhabited

/-- Why a command line asks for nothing. -/
inductive Refusal where
  /-- It asks for help. -/
  | help
  /-- It is not well formed. -/
  | usage
  deriving DecidableEq, Repr, Inhabited

/-- The exit code. -/
def Refusal.exitCode : Refusal → Nat
  | help => 0
  | usage => 2

/-- The options. -/
inductive Flag where
  | help
  | width
  | indent
  | fold
  | compiler
  | json
  | logLevel
  deriving DecidableEq, Repr, Inhabited

namespace Flag

/-- All options. -/
def all : List Flag := [help, width, indent, fold, compiler, json, logLevel]

/-- The long name of an option. -/
def name : Flag → Text
  | help => "--help".toList
  | width => "--width".toList
  | indent => "--indent".toList
  | fold => "--fold".toList
  | compiler => "--compiler".toList
  | json => "--json".toList
  | logLevel => "--log-level".toList

/-- The letter of an option. -/
def letter? : Flag → Option Char
  | help => some 'h'
  | width => some 'w'
  | indent => some 'i'
  | _ => none

/-- The option has a value. -/
def takesValue : Flag → Bool
  | help | json => false
  | _ => true

/-- The option of a letter. -/
def ofLetter? (c : Char) : Option Flag := all.find? fun f => f.letter? == some c

/-- The option of a whole name or of a dash and a letter. -/
def ofName? (t : Text) : Option Flag :=
  match t with
  | ['-', c] => ofLetter? c
  | _ => all.find? fun f => f.name = t

/-- The options whose names start with `t`. -/
def startingWith (t : Text) : List Flag := all.filter fun f => f.name.startsWith t

end Flag

/-- A word of a command line. -/
inductive Word where
  /-- A value or the name of an input. -/
  | value (t : Text)
  /-- Two dashes: no option comes after them. -/
  | dashes
  /-- An option, and the value attached to it. -/
  | option (f : Flag) (attached : Option Text)
  /-- The letter of an option without a value, and the letters attached to it. -/
  | letters (f : Flag) (more : Text)
  /-- An option that there is not. -/
  | unknown
  deriving DecidableEq, Repr, Inhabited

namespace Word

/-- What stands before and after the first equals sign. -/
def splitEquals? (t : Text) : Option (Text × Text) :=
  match t.dropWhile (· != '=') with
  | [] => none
  | _ :: after => some (t.takeWhile (· != '='), after)

/-- The text is a negative number, with or without a fraction. A line feed may follow. -/
def isNegativeNumber (t : Text) : Bool :=
  match t with
  | '-' :: t =>
    let t := if t.getLast? = some '\n' then t.dropLast else t
    match t.dropWhile Text.isDigit with
    | [] => !t.isEmpty
    | '.' :: fraction => !fraction.isEmpty && fraction.all Text.isDigit
    | _ => false
  | _ => false

/-- A word that starts with a dash and is not the name of an option. -/
def readOther (t : Text) : Word :=
  if isNegativeNumber t || t.contains ' ' then .value t else .unknown

/-- A word that starts with two dashes: a start of one name, perhaps with a value. A start of
several names is refused. -/
def readLong (t : Text) : Option Word :=
  let (name, attached) := match splitEquals? t with
    | some (name, v) => (name, some v)
    | none => (t, none)
  match Flag.startingWith name with
  | [] => some (readOther t)
  | [f] => some (.option f attached)
  | _ => none

/-- A word that starts with one dash: a letter, and its value or more letters. -/
def readShort (t : Text) : Word :=
  match t with
  | _ :: c :: more =>
    match Flag.ofLetter? c with
    | some f => if f.takesValue then .option f (some more) else .letters f more
    | none => readOther t
  | _ => readOther t

/-- An option given by `name`, with a text after an equals sign. Behind the letter of an option
without a value the text is more letters. -/
def attached (name : Text) (f : Flag) (v : Text) : Word :=
  if name.length = 2 ∧ f.takesValue = false ∧ v ≠ [] then .letters f v else .option f (some v)

/-- Reads a word before the two dashes. -/
def read (t : Text) : Option Word :=
  if t.head? ≠ some '-' ∨ t = ['-'] then some (.value t)
  else match Flag.ofName? t with
    | some f => some (.option f none)
    | none =>
      match splitEquals? t with
      | some (name, v) =>
        match Flag.ofName? name with
        | some f => some (attached name f v)
        | none => if t.startsWith "--".toList then readLong t else some (readShort t)
      | none => if t.startsWith "--".toList then readLong t else some (readShort t)

/-- Reads the words of a command line. -/
def readAll : List Text → Option (List Word)
  | [] => some []
  | t :: ts =>
    if t = "--".toList then some (.dashes :: ts.map .value)
    else do
      let w ← read t
      let ws ← readAll ts
      some (w :: ws)

end Word

/-- Where the names of the inputs are: still to come, being read, or all read. -/
inductive NamesState where
  | before
  | reading
  | after
  deriving DecidableEq, Repr, Inhabited

/-- A command line being read. -/
structure Reader where
  args : Arguments := {}
  names : NamesState := .before
  /-- A word was met that has no place. -/
  stray : Bool := false
  deriving DecidableEq, Repr, Inhabited

namespace Reader

/-- The reader after a value that belongs to no option. -/
def addName (r : Reader) (t : Text) : Reader :=
  if r.names = .after then { r with stray := true }
  else { r with names := .reading, args := { r.args with files := r.args.files ++ [t] } }

/-- The reader after the two dashes. -/
def addDashes (r : Reader) : Reader :=
  if r.names = .after then { r with stray := true } else { r with names := .reading }

/-- The reader at an option: the names of the inputs that came before are all there are. -/
def atOption (r : Reader) : Reader :=
  if r.names = .reading then { r with names := .after } else r

/-- What a text says about an option whose values are read by `read?`. -/
def choice? {α : Type} (read? : Text → Option α) (t : Text) : Option (Choice α) :=
  if t = ['-', '-'] then some .blank else (read? t).map .given

/-- The arguments with the value of an option. -/
def setValue (a : Arguments) (f : Flag) (value : Text) : Option Arguments :=
  match f with
  | .width => (choice? Text.readInt? value).map fun width => { a with width }
  | .indent => (choice? Text.readInt? value).map fun indent => { a with indent }
  | .fold => (choice? Text.readInt? value).map fun fold => { a with fold }
  | .compiler => (choice? Family.ofName? value).map fun family => { a with family }
  | .logLevel => (choice? Level.ofName? value).map fun level => { a with level }
  | .help | .json => none

/-- The reader after an option and its value. -/
def set (r : Reader) (f : Flag) (value : Text) : Except Refusal Reader :=
  match setValue r.args f value with
  | some args => .ok { r.atOption with args }
  | none => .error .usage

/-- The reader after an option without a value. -/
def switch (r : Reader) (f : Flag) : Except Refusal Reader :=
  if f = .help then .error .help
  else .ok { r.atOption with args := { r.args with json := true } }

/-- What letters after the one for help come to: help, unless there is no option of a letter. A
letter whose value would be the next word needs that word, `valueNext`. -/
def afterHelp (valueNext : Bool) : Text → Refusal
  | [] => .help
  | c :: more =>
    match Flag.ofLetter? c with
    | none => .usage
    | some f =>
      if f.takesValue then (if more.isEmpty && !valueNext then .usage else .help)
      else afterHelp valueNext more

/-- The reader after the words. -/
def run (r : Reader) : List Word → Except Refusal Arguments
  | [] => if r.stray then .error .usage else .ok r.args
  | .value t :: ws => (r.addName t).run ws
  | .dashes :: ws => r.addDashes.run ws
  | .unknown :: ws => { r.atOption with stray := true }.run ws
  | .letters _ more :: ws =>
    .error (afterHelp (match ws with | .value _ :: _ => true | _ => false) more)
  | .option f attached :: ws =>
    if f.takesValue then
      match attached, ws with
      | some value, ws => do (← r.set f value).run ws
      | none, .value value :: ws => do (← r.set f value).run ws
      | none, _ => .error .usage
    else if attached.isSome then .error .usage
    else do (← r.switch f).run ws

end Reader

/-- Reads a command line. -/
def Arguments.read (words : List Text) : Except Refusal Arguments :=
  match Word.readAll words with
  | none => .error .usage
  | some ws => ({} : Reader).run ws

end DiagLayout
