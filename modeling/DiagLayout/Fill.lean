import DiagLayout.Config
import DiagLayout.Printer
import DiagLayout.Recognition
import DiagLayout.Substitution

/-!
# Filling types and functions

A type is laid out as one stretch. So is a function, unless it shows substitutions: then the
signature is laid out first, and every substitution goes on a line of its own, one unit further in.
The value of a substitution is laid out from the column after its name and equals sign.
-/

namespace DiagLayout

/-- The instructions for a type. -/
def fillType (src : Source) (e : Extent) (indent : Int) (config : Config) (atoms : List Atom) :
    Except Fault (List Instruction) :=
  layOut src e config.width config.indent indent atoms

/-- The instructions for a substitution, laid out from column `indent` on. -/
def fillSubstitution (src : Source) (indent : Int) (config : Config) (atoms : List Atom)
    (sub : Extent) : Except Fault (List Instruction) := do
  let inner ← match src.valuePosition? sub with
    | none => fillType src sub indent config atoms
    | some value =>
      fillType src ⟨value, sub.stop⟩ (indent + ((value : Int) - sub.start)) config atoms
  .ok (⟨sub.start, indent⟩ :: inner)

/-- The interior of a group of substitutions is hidden. -/
def isFolded (group : Extent) (atoms : List Atom) : Bool :=
  atoms.any fun a => a.span.start == (group.start : Int) + 1

/-- The instructions for a function. -/
def fillFunction (src : Source) (e : Extent) (indent : Int) (config : Config)
    (atoms : List Atom) : Except Fault (List Instruction) := do
  match ← src.substitutionGroup? e with
  | none => fillType src e indent config atoms
  | some group =>
    if isFolded group atoms then fillType src e indent config atoms
    else
      let signature ← fillType src ⟨e.start, group.start⟩ indent config atoms
      let subs ← (src.substitutions (Source.substitutionInterior group)).mapM
        (fillSubstitution src (indent + config.indent) config atoms)
      .ok (signature ++ subs.flatten)

/-- The instructions for a stretch of source that is read as a function or a type. -/
def fill (r : Reading) (src : Source) (e : Extent) (indent : Int) (config : Config)
    (atoms : List Atom) : Except Fault (List Instruction) :=
  match r with
  | .function => fillFunction src e indent config atoms
  | .type => fillType src e indent config atoms

end DiagLayout
