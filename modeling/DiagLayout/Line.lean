import DiagLayout.Expression
import DiagLayout.Quote

/-!
# Lines

A complete line of compiler output is looked through for quotes. Each quote that is recognised
becomes an expression, and each that is not, or not to its end, leaves a note. A line that is no
diagnostic has neither.
-/

namespace DiagLayout

/-- What is remarked about a quote. -/
inductive Note where
  /-- The quote is neither a function nor a type. -/
  | unparsed (quote : Span) (text : Text)
  /-- The match does not cover the whole quote. -/
  | leftOver (quote : Span) (found : Match) (text : Text)
  deriving DecidableEq, Repr, Inhabited

namespace Note

/-- The quote that the note is about. -/
def quote : Note → Span
  | unparsed q _ => q
  | leftOver q _ _ => q

/-- The name of the kind of note. -/
def name : Note → String
  | unparsed .. => "unparsed"
  | leftOver .. => "partial"

/-- The wording of the note. -/
def message : Note → String
  | unparsed _ text => "not recognized as a function or type: " ++ text.quoted
  | leftOver _ found text =>
    found.reading.name ++ " matched " ++ toString found.length ++ " of " ++
      toString text.length ++ " characters: " ++ Text.quoted (text.drop found.length) ++
      " left over"

end Note

/-- The expressions and notes of a line. -/
structure LineReport where
  span : Span
  expressions : List Expression := []
  notes : List Note := []
  deriving DecidableEq, Repr, Inhabited

/-- The expressions and notes that a quote gives, `base` being the offset of its line. -/
def Quote.read (base : Int) (config : Config) (q : Quote) :
    Except Fault (List Expression × List Note) :=
  let place : Span := ⟨base + q.start, base + q.stop⟩
  match Match.best? (Source.ofText q.body) with
  | none => .ok ([], [.unparsed place q.body])
  | some m => do
    let e ← Expression.make q.body m place q.start config none
    .ok ([e], if m.length < q.body.length then [.leftOver place m q.body] else [])

/-- The expressions and notes of a complete line that starts at the offset `base`. -/
def examineLine (line : Text) (base : Int) (config : Config) : Except Fault LineReport :=
  let span : Span := ⟨base, base + line.length⟩
  if config.accepts line then do
    let parts ← (Quote.all line).mapM (Quote.read base config)
    .ok { span, expressions := parts.flatMap (·.1), notes := parts.flatMap (·.2) }
  else .ok { span }

end DiagLayout
