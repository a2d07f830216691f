import DiagLayout.Event
import DiagLayout.Region

/-!
# Folding

To fold regions at a level is to hide those of that depth or more. A region of exactly that depth is
replaced by a placeholder, and those inside it are buried with it.
-/

namespace DiagLayout

/-- What is seen of a region. -/
inductive Visibility where
  /-- The region itself. -/
  | shown
  /-- A placeholder. -/
  | replaced (placeholder : Text)
  /-- Nothing: a region around it is replaced. -/
  | buried
  deriving DecidableEq, Repr, Inhabited

namespace Visibility

/-- The region itself is not seen. -/
def isHidden : Visibility → Bool
  | shown => false
  | _ => true

/-- What is seen in place of the region. -/
def placeholder? : Visibility → Option Text
  | replaced p => some p
  | _ => none

end Visibility

/-- A region and what is seen of it. -/
structure View where
  region : Region
  visibility : Visibility
  deriving DecidableEq, Repr, Inhabited

/-- A hidden span and the text shown in its place. -/
structure Placeholder where
  span : Span
  text : Text
  deriving DecidableEq, Repr, Inhabited

/-- The hidden span as an atom of the layout. -/
def Placeholder.atom (p : Placeholder) : Atom := ⟨p.span, p.text.length⟩

/-- Regions folded at a level, or unfolded. -/
structure Folding where
  level : Option Int
  views : List View
  deriving DecidableEq, Repr, Inhabited

namespace Folding

/-- The placeholder that a view shows. An empty region shows none. -/
def placeholderOf (v : View) : Option Placeholder :=
  match v.visibility with
  | .replaced p => if v.region.start < v.region.stop then some ⟨v.region.span, p⟩ else none
  | _ => none

/-- The spans hidden and what is shown for them. -/
def placeholders (f : Folding) : List Placeholder := f.views.filterMap placeholderOf

/-- The spans hidden, as atoms of the layout. -/
def atoms (f : Folding) : List Atom := f.placeholders.map Placeholder.atom

/-- The folding with every region moved by `delta`. -/
def shift (f : Folding) (delta : Int) : Folding :=
  ⟨f.level, f.views.map fun v => ⟨v.region.shift delta, v.visibility⟩⟩

end Folding

/-- What is seen of a region when the depth `level` is folded. -/
def visibilityAt (level : Int) (placeholder : Text) (r : Region) : Visibility :=
  if r.depth < level then .shown
  else if r.depth = level then .replaced placeholder
  else .buried

/-- The regions folded at a level, which is at least one; without a level all are shown. -/
def fold (regions : List Region) (level : Option Int) (placeholder : Text) :
    Except Fault Folding :=
  match level with
  | none => .ok ⟨none, regions.map fun r => ⟨r, .shown⟩⟩
  | some n =>
    if n < 1 then .error (.foldLevel n)
    else .ok ⟨some n, regions.map fun r => ⟨r, visibilityAt n placeholder r⟩⟩

end DiagLayout
