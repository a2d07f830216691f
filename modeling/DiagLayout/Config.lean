import DiagLayout.Fault
import DiagLayout.LineShape
import DiagLayout.Text.Integer

/-!
# Configuration

The settings of a session: the width to fill, the columns of one indent, what is shown for a hidden
group, and which lines are laid out at all. Width and indent are positive, and `Config.make` refuses
any other.

`Settings` are the choices made so far. They become a configuration by themselves, for a compiler
family, or with the sizes that are not chosen taken from the environment.
-/

namespace DiagLayout

/-- The settings of a session. -/
structure Config where
  /-- The width to fill. -/
  width : Int := 100
  /-- The columns of one indent. -/
  indent : Int := 2
  /-- What is shown for a hidden group. -/
  placeholder : Text := ['…']
  /-- The shapes of the lines to lay out, whatever tests they are. -/
  shapes : List LineShape := Family.any.shapes
  /-- A line with one of these texts is left alone. -/
  markers : List Text := ["static_assert".toList, "static assertion failed".toList]
  width_pos : 0 < width := by decide
  indent_pos : 0 < indent := by decide

instance : Inhabited Config := ⟨{}⟩

/-- Choices among the settings; the others keep their defaults. -/
structure Settings where
  width : Option Int := none
  indent : Option Int := none
  placeholder : Option Text := none
  markers : Option (List Text) := none
  deriving DecidableEq, Repr, Inhabited

/-- Variables and their values. -/
abbrev Environment := List (String × Text)

/-- The value of a variable as an integer. A variable with an empty value counts as not set. -/
def Environment.int? (env : Environment) (name : String) : Except Fault (Option Int) :=
  match env.lookup name with
  | none | some [] => .ok none
  | some value =>
    match Text.readInt? value with
    | none => .error (.notAnInteger name value)
    | some n => .ok (some n)

namespace Config

/-- The configuration with the given width, which has to be positive. -/
def withWidth (c : Config) (n : Int) : Except Fault Config :=
  if h : 0 < n then .ok { c with width := n, width_pos := h } else .error (.badWidth n)

/-- The configuration with the given indent, which has to be positive. -/
def withIndent (c : Config) (n : Int) : Except Fault Config :=
  if h : 0 < n then .ok { c with indent := n, indent_pos := h } else .error (.badIndent n)

/-- The configuration for lines of the given shapes. -/
def withShapes (c : Config) (shapes : List LineShape) : Config := { c with shapes }

/-- The configuration with the settings chosen. The width is looked at before the indent. -/
def make (s : Settings) : Except Fault Config := do
  let c : Config := {}
  let c := { c with
    placeholder := s.placeholder.getD c.placeholder
    markers := s.markers.getD c.markers }
  let c ← c.withWidth (s.width.getD c.width)
  c.withIndent (s.indent.getD c.indent)

/-- The configuration for a compiler family. -/
def forFamily (name : Text) (s : Settings) : Except Fault Config :=
  match Family.ofName? name with
  | none => .error (.unknownFamily name)
  | some family => do
    let c ← make s
    .ok (c.withShapes family.shapes)

/-- The variable that holds the width. -/
def widthVariable : String := "SPEWFMT_FILL_WIDTH"

/-- The variable that holds the indent. -/
def indentVariable : String := "SPEWFMT_INDENT"

/-- A size that is chosen, or else the one of the environment. -/
def sizeFrom (env : Environment) (name : String) : Option Int → Except Fault (Option Int)
  | some n => .ok (some n)
  | none => env.int? name

/-- The configuration with the sizes that are not chosen taken from the environment. -/
def ofEnvironment (env : Environment) (s : Settings) : Except Fault Config := do
  let width ← sizeFrom env widthVariable s.width
  let indent ← sizeFrom env indentVariable s.indent
  make { s with width, indent }

/-- The line is a diagnostic to lay out: it is at least as long as the width, holds no marker, and
has one of the shapes. -/
def accepts (c : Config) (line : Text) : Bool :=
  c.width ≤ line.length && !c.markers.any (fun m => Text.occursIn m line) &&
    c.shapes.any (·.fits line)

end Config

end DiagLayout
