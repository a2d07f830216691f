import DiagLayout.Dialect

/-!
# Recognition

A quote is read as a function and as a type, and the reading that covers more of it is taken; of two
that cover the same, the function. A reading covers at least one character.
-/

namespace DiagLayout

/-- What a quote can be read as. -/
inductive Reading where
  | function
  | type
  deriving DecidableEq, Repr, Inhabited

namespace Reading

/-- The name of a reading. -/
def name : Reading → String
  | function => "function"
  | type => "type"

/-- The grammar of a reading. -/
def grammar : Reading → Grammar
  | function => Dialect.function
  | type => Dialect.type

end Reading

/-- A reading and the number of characters at the start that it covers. -/
structure Match where
  reading : Reading
  length : Nat
  deriving DecidableEq, Repr, Inhabited

namespace Match

/-- The positions that the match covers. -/
def extent (m : Match) : Extent := ⟨0, m.length⟩

/-- The match covers the whole source. -/
def coversAll (m : Match) (src : Source) : Bool := m.length == src.length

/-- The match of one reading, if it covers anything. -/
def of? (r : Reading) (src : Source) : Option Match :=
  match r.grammar.consume src with
  | some (n + 1) => some ⟨r, n + 1⟩
  | _ => none

end Match

/-- The longest match of a source. A complete function needs no second look. -/
def Match.best? (src : Source) : Option Match :=
  match Match.of? .function src with
  | none => Match.of? .type src
  | some f =>
    if f.coversAll src then some f
    else match Match.of? .type src with
      | none => some f
      | some t => if f.length < t.length then some t else some f

end DiagLayout
