import DiagLayout.Token

/-!
# Regions

The interior of a group is a region. Its depth is the number of groups around it, its own included,
so that the outermost regions have depth one. `Source.regions` lists the regions of a stretch in the
order of their openers: while it walks over the tokens it keeps, for each group that is open, the
regions that were complete before it opened.
-/

namespace DiagLayout

/-- The interior of a group, and its depth. -/
structure Region where
  start : Int
  stop : Int
  depth : Int
  deriving DecidableEq, Repr, Inhabited

namespace Region

/-- The region moved by `delta`. -/
def shift (r : Region) (delta : Int) : Region := ⟨r.start + delta, r.stop + delta, r.depth⟩

/-- The offsets of the region. -/
def span (r : Region) : Span := ⟨r.start, r.stop⟩

end Region

/-- An open group: the position of its opener, and the regions complete before it that lie in the
same group. -/
structure OpenGroup where
  opener : Nat
  before : List Region
  deriving DecidableEq, Repr, Inhabited

/-- The regions of the tokens, where `opened` are the groups open before them, the innermost first,
and `done` the regions complete in the innermost. -/
def nest (opened : List OpenGroup) (done : List Region) : List Token → Except Fault (List Region)
  | [] =>
    match opened with
    | [] => .ok done
    | g :: _ => .error (.unclosedGroup g.opener)
  | t :: ts =>
    match t.kind with
    | .opener => nest (⟨t.start, done⟩ :: opened) [] ts
    | .closer =>
      match opened with
      | [] => .error (.unmatchedCloser t.start)
      | g :: outer =>
        nest outer (g.before ++ ⟨g.opener + 1, t.start, opened.length⟩ :: done) ts
    | _ => nest opened done ts

/-- The regions at the positions of an extent, by increasing start. -/
def Source.regions (src : Source) (e : Extent) : Except Fault (List Region) := do
  let ts ← src.readTokens e
  nest [] [] ts

end DiagLayout
