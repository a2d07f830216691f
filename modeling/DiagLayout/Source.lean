import DiagLayout.Glyph
import DiagLayout.Spelling
import DiagLayout.Span

/-!
# Sources

A source is a piece of C++ as a list of glyphs. `Source.ofText` reads a text: each character plays
its own part, except that the characters of a spelling belong to a symbol.

A walk over a source goes up to a stop, which may lie past the end. Then `Source.overruns` holds,
and a walk that gets to the end of the source ends in a fault.

* `Source.pastRun`: over the glyphs of one kind;
* `Source.findCloser`: from an opener to its closer, by a stack of the brackets still open
  (`closing`);
* `Source.pastUnit`: over a whole group or a symbol.
-/

namespace DiagLayout

/-- A piece of C++, glyph by glyph. -/
abbrev Source := List Glyph

namespace Source

/-- The source of a text. -/
def ofText (t : Text) : Source :=
  List.zipWith (fun c marked => ⟨c, if marked then .symbol else baseClass c⟩) t (spelled t)

/-- The characters of the source. -/
def text (src : Source) : Text := Glyph.text src

@[simp] theorem length_ofText (t : Text) : (ofText t).length = t.length := by
  simp [ofText]

/-- Reading a text keeps its characters. -/
theorem text_ofText (t : Text) : (ofText t).text = t := by
  rw [text, Glyph.text, ofText, List.map_zipWith, ← List.map_uncurry_zip_eq_zipWith]
  exact List.map_fst_zip (by simp)

/-- The kind of the glyph at a position, if there is one. -/
def kind? (src : Source) (i : Int) : Option Kind :=
  if i < 0 then none else (src[i.toNat]?).map Glyph.kind

/-- The glyphs of the source at the positions of an extent. -/
def window (src : Source) (e : Extent) : List Glyph :=
  (src.drop e.start).take (e.stop - e.start)

/-- The extent is not empty and reaches past the end of the source. -/
def overruns (src : Source) (e : Extent) : Bool :=
  e.start < e.stop && src.length < e.stop

theorem overruns_eq_false {src : Source} {e : Extent} (h : e.stop ≤ src.length) :
    src.overruns e = false := by
  simp [overruns, Nat.not_lt.mpr h]

/-- The positions of the whole source. -/
def whole (src : Source) : Extent := ⟨0, src.length⟩

/-- The first position of the extent whose glyph is not of kind `k`, or its stop. -/
def pastRun (src : Source) (k : Kind) (e : Extent) : Except Fault Nat :=
  let gs := src.window e
  let run := gs.takeWhile (Glyph.isKind k)
  if run.length = gs.length ∧ src.overruns e then .error .pastEnd
  else .ok (e.start + run.length)

end Source

/-! ### Groups -/

/-- How a walk from an opener ends. -/
inductive Closing where
  /-- The opener is closed by the glyph this far ahead. -/
  | closed (distance : Nat)
  /-- A closer came that closes no bracket still open. -/
  | mismatched
  /-- The glyphs ended before the closer. -/
  | unfinished
  deriving DecidableEq, Repr

/-- The same end, seen from one glyph further left. -/
def Closing.next : Closing → Closing
  | closed distance => closed (distance + 1)
  | mismatched => mismatched
  | unfinished => unfinished

/-- Walks until the brackets opened are all closed; `stack` holds those open before the glyphs,
the innermost first. -/
def closing : List Bracket → List Glyph → Closing
  | _, [] => .unfinished
  | stack, g :: gs =>
    match g.cls with
    | .opener b => (closing (b :: stack) gs).next
    | .closer b =>
      match stack with
      | [] => .mismatched
      | top :: below =>
        if top = b then (if below.isEmpty then .closed 0 else (closing below gs).next)
        else .mismatched
    | _ => (closing stack gs).next

/-- The distance from an opener at the start of the glyphs to its closer. -/
def groupEnd? : List Glyph → Option Nat
  | [] => none
  | g :: gs =>
    if g.kind = .opener then
      match closing [] (g :: gs) with
      | .closed distance => some distance
      | _ => none
    else none

namespace Source

/-- The position of the closer of the group opened at `i`, if it lies before `stop`. -/
def findCloser (src : Source) (i : Int) (stop : Nat) : Except Fault (Option Nat) :=
  if src.kind? i = some .opener then
    let e : Extent := ⟨i.toNat, stop⟩
    match closing [] (src.window e) with
    | .closed distance => .ok (some (e.start + distance))
    | .mismatched => .ok none
    | .unfinished => if src.overruns e then .error .pastEnd else .ok none
  else .ok none

/-- The position after a whole group, after the rest of a symbol, or after one glyph. -/
def pastUnit (src : Source) (i stop : Nat) : Except Fault Nat :=
  if src.kind? i = some .opener then do
    match ← src.findCloser i stop with
    | none => .ok (i + 1)
    | some close => .ok (close + 1)
  else do
    let j ← src.pastRun .symbol ⟨i, stop⟩
    .ok (if i < j then j else i + 1)

end Source

end DiagLayout
