import DiagLayout.Fill
import DiagLayout.Fold

/-!
# Expressions

An expression is a quote that was recognised, with its place in the session and its layout. The part
that the match covers is laid out; if it does not fit on the line of the quote, it starts a line of
its own. `Expression.make` lays out a quote at a fold level; everything in the result is in offsets
of the session.
-/

namespace DiagLayout

/-- A quote that was recognised, and its layout. -/
structure Expression where
  /-- The offsets between the quotation marks. -/
  quote : Span
  /-- What the quote is read as, and how much of it. -/
  found : Match
  /-- The column of the quote in its line. -/
  column : Nat
  /-- The expression starts a line of its own. -/
  ownLine : Bool
  instructions : List Instruction
  regions : List Region
  fold : Folding
  deriving DecidableEq, Repr, Inhabited

namespace Expression

/-- The offsets that the match covers. -/
def matched (e : Expression) : Span := e.found.extent.span.shift e.quote.start

/-- The columns that a match takes when the atoms have their own widths. -/
def shownLength (m : Match) (atoms : List Atom) : Int :=
  atoms.foldl (fun n a => n - (a.span.length - a.width)) m.length

/-- The layout of the text of a quote, folded at a level. -/
def make (text : Text) (m : Match) (quote : Span) (column : Nat) (config : Config)
    (level : Option Int) : Except Fault Expression := do
  let src := Source.ofText text
  let regions ← src.regions m.extent
  let state ← DiagLayout.fold regions level config.placeholder
  let atoms := state.atoms
  let leading := decide (config.width < column + shownLength m atoms)
  let instructions ← fill m.reading src m.extent (if leading then 0 else column) config atoms
  let first : List Instruction := if leading then [⟨m.extent.start, 0⟩] else []
  .ok {
    quote
    found := m
    column
    ownLine := leading
    instructions := (first ++ instructions).map (·.shift quote.start)
    regions := regions.map (·.shift quote.start)
    fold := state.shift quote.start }

end Expression

end DiagLayout
