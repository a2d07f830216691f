import DiagLayout.Fault

/-!
# Spans, instructions and extents

Offsets of a whole session are integers. A `Span` is a half-open stretch of them, and an
`Instruction` asks for a line break at one. An `Extent` is a half-open stretch of positions in one
source, counted from its first character.
-/

namespace DiagLayout

/-- The offsets from `start` up to, and without, `stop`. -/
structure Span where
  start : Int
  stop : Int
  deriving DecidableEq, Repr, Inhabited

namespace Span

/-- The number of offsets between the ends, negative for a span that ends before it starts. -/
def length (s : Span) : Int := s.stop - s.start

/-- The number of offsets, refused for a span that ends before it starts. -/
def size? (s : Span) : Except Fault Int :=
  if s.length < 0 then .error .negativeLength else .ok s.length

/-- The offset lies in the span. -/
def contains (s : Span) (offset : Int) : Bool := s.start ≤ offset && offset < s.stop

/-- The span moved by `delta`. -/
def shift (s : Span) (delta : Int) : Span := ⟨s.start + delta, s.stop + delta⟩

/-- The characters of a text in the span. -/
def slice (s : Span) (t : Text) : Text := t.slice s.start s.stop

/-- The span as shown in messages. -/
def format (s : Span) : String := toString s.start ++ ".." ++ toString s.stop

end Span

/-- Break the line before `offset` and start the next one with `indent` spaces. -/
structure Instruction where
  offset : Int
  indent : Int
  deriving DecidableEq, Repr, Inhabited

/-- The instruction moved by `delta`. -/
def Instruction.shift (i : Instruction) (delta : Int) : Instruction :=
  ⟨i.offset + delta, i.indent⟩

/-- The positions of a source from `start` up to, and without, `stop`. -/
structure Extent where
  start : Nat
  stop : Nat
  deriving DecidableEq, Repr, Inhabited

/-- The extent as a span of offsets. -/
def Extent.span (e : Extent) : Span := ⟨e.start, e.stop⟩

end DiagLayout
