import DiagLayout.Document
import DiagLayout.Session

/-!
# Reports

A session as structured output: every expression with its place, its instructions, its regions and
how it is folded. The fields of a record are in alphabetical order.
-/

namespace DiagLayout

/-- A span as structured output. -/
def Span.document (s : Span) : Document :=
  .record [("end", .int s.stop), ("start", .int s.start)]

/-- An instruction as structured output. -/
def Instruction.document (i : Instruction) : Document :=
  .record [("indent", .int i.indent), ("offset", .int i.offset)]

/-- A region as structured output. -/
def Region.document (r : Region) : Document :=
  .record [("depth", .int r.depth), ("end", .int r.stop), ("start", .int r.start)]

/-- What is seen of a region, as structured output. -/
def View.document (v : View) : Document :=
  .record
    [("hidden", .bool v.visibility.isHidden),
     ("placeholder", (v.visibility.placeholder?.map Document.text).getD .null),
     ("region", v.region.document)]

/-- A fold as structured output. -/
def Folding.document (f : Folding) : Document :=
  .record
    [("level", (f.level.map Document.int).getD .null),
     ("regions", .list (f.views.map View.document))]

/-- An expression as structured output. -/
def Expression.document (e : Expression) : Document :=
  .record
    [("column", .int e.column),
     ("fold", e.fold.document),
     ("instructions", .list (e.instructions.map Instruction.document)),
     ("kind", .text e.found.reading.name.toList),
     ("leading_break", .bool e.ownLine),
     ("match", e.matched.document),
     ("quote", e.quote.document),
     ("regions", .list (e.regions.map Region.document))]

/-- A session as structured output. -/
def Session.document (s : Session) : Document :=
  .record [("expressions", .list (s.expressions.map Expression.document))]

end DiagLayout
