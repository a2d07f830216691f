import DiagLayout.Dialect

/-!
# Substitutions of a function

A function may end in a group that says what its template parameters stand for: an opening, then
substitutions between semicolons. `Source.substitutionGroup?` finds the group,
`Source.substitutions` cuts its interior, and `Source.valuePosition?` finds where the value of a
substitution starts, after the name and the equals sign.
-/

namespace DiagLayout

/-- The tokens outside all groups, where `depth` groups are open before the first. Openers at the
top count as outside; closers do not. -/
def outermost (depth : Int) : List Token → List Token
  | [] => []
  | t :: ts =>
    match t.kind with
    | .closer => outermost (depth - 1) ts
    | .opener => (if depth = 0 then [t] else []) ++ outermost (depth + 1) ts
    | _ => (if depth = 0 then [t] else []) ++ outermost depth ts

namespace Source

/-- The group of substitutions that a token opens, if it closes before `stop`. -/
def substitutionGroupAt? (src : Source) (stop : Nat) (t : Token) : Option Extent :=
  if t.kind = .opener ∧ Text.startsWith (Glyph.text (src.drop t.start)) Dialect.withOpening then
    (groupEnd? (src.window ⟨t.start, stop⟩)).map fun distance =>
      ⟨t.start, t.start + distance + 1⟩
  else none

/-- The first group of substitutions outside all groups, brackets included. -/
def substitutionGroup? (src : Source) (e : Extent) : Except Fault (Option Extent) := do
  let ts ← src.readTokens e
  .ok ((outermost 0 ts).findSome? (src.substitutionGroupAt? e.stop))

/-- The positions in which to look for a group of substitutions: those of a span, or all of them if
there is no span or it is empty. -/
def requested (src : Source) : Option Span → Except Fault Extent
  | none => .ok src.whole
  | some s => do
    let size ← s.size?
    .ok (if size = 0 then src.whole else ⟨s.start.toNat, s.stop.toNat⟩)

/-- The positions between the opening of a group of substitutions and its closer. -/
def substitutionInterior (group : Extent) : Extent :=
  ⟨group.start + Dialect.withOpening.length, group.stop - 1⟩

/-- The pieces from `piece` to `stop` between the tokens that hold a semicolon. The last piece
counts unless it is empty. -/
def pieces (piece stop : Nat) : List Token → List Extent
  | [] => if piece < stop then [⟨piece, stop⟩] else []
  | t :: ts =>
    if t.kind = .separator ∧ t.text.contains ';' then ⟨piece, t.start⟩ :: pieces t.stop stop ts
    else pieces piece stop ts

/-- The substitutions in the interior of a group. -/
def substitutions (src : Source) (interior : Extent) : List Extent :=
  pieces interior.start interior.stop (outermost 0 (src.tokens interior))

/-- The position of the value of a substitution, if it has a name and an equals sign. -/
def valuePosition? (src : Source) (sub : Extent) : Option Nat :=
  ((outermost 0 (src.tokens sub)).find? fun t => t.kind = .symbol ∧ t.text = ['=']).map fun t =>
    t.stop + runLength .space (src.window ⟨t.stop, sub.stop⟩)

end Source

end DiagLayout
