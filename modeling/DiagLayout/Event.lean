import DiagLayout.Token

/-!
# Events of a layout

The layout of a stretch of source is driven by events: a text of some width, a group entered with
the length it takes if it is not broken, a group left, and a gap, where a broken group goes on to
the next line. `Source.trace` gives the events of a stretch.

Part of a stretch may be hidden. An `Atom` stands for it, with the width of what is shown in its
place.

The walk over the stretch stops at an opener without a closer. The `Trace` that it leaves holds the
events before the fault, and the fault.
-/

namespace DiagLayout

/-- A hidden span and the width of what is shown for it. -/
structure Atom where
  span : Span
  width : Int
  deriving DecidableEq, Repr, Inhabited

/-- What happens along a stretch of source. -/
inductive Event where
  /-- The text of `span` takes `width` columns. -/
  | text (span : Span) (width : Int)
  /-- A group begins that takes `length` columns, closer included, if it is not broken. -/
  | enter (length : Int)
  /-- A group ends. -/
  | exit
  /-- The line may be broken here. -/
  | gap
  /-- Something that has no meaning in a layout. -/
  | other (label : Text)
  deriving DecidableEq, Repr, Inhabited

/-- The events along a stretch, and the fault that ended the walk, if one did. -/
structure Trace where
  events : List Event
  fault : Option Fault
  deriving DecidableEq, Repr, Inhabited

namespace Trace

/-- The trace with `events` before it. -/
def prepend (events : List Event) (tr : Trace) : Trace := ⟨events ++ tr.events, tr.fault⟩

/-- The trace of `events` and then a fault. -/
def stopped (events : List Event) (f : Fault) : Trace := ⟨events, some f⟩

end Trace

namespace Atom

/-- The atom that starts at a position; of several the last. -/
def startingAt (atoms : List Atom) (i : Nat) : Option Atom :=
  (atoms.filter fun a => a.span.start == (i : Int)).getLast?

/-- The columns left of `length` when an atom inside the positions of `e` has its own width. -/
def shrink (e : Extent) (length : Int) (a : Atom) : Except Fault Int :=
  if e.start ≤ a.span.start ∧ a.span.stop ≤ e.stop then do
    let size ← a.span.size?
    .ok (length - (size - a.width))
  else .ok length

/-- The columns that the positions of `e` take when the atoms inside have their own widths. -/
def shownLength (atoms : List Atom) (e : Extent) : Except Fault Int :=
  atoms.foldlM (shrink e) (e.stop - e.start)

end Atom

/-- The events of a token that is not hidden, `rest` being the tokens after it and `range` the
positions walked over. -/
def Token.events (t : Token) (atoms : List Atom) (range : Extent) (rest : List Token) :
    Trace :=
  let text := Event.text t.extent.span t.glyphs.length
  match t.kind with
  | .separator => ⟨[text, .gap], none⟩
  | .opener =>
    match groupEnd? ((t :: rest).flatMap Token.glyphs) with
    | none => .stopped [text] (.unbalanced t.start range.start range.stop)
    | some distance =>
      match Atom.shownLength atoms ⟨t.stop, t.start + distance + 1⟩ with
      | .error f => .stopped [text] f
      | .ok length => ⟨[text, .enter length], none⟩
  | .closer => ⟨[text, .exit], none⟩
  | _ => ⟨[text], none⟩

/-- The events of the tokens from the offset `resume` on: those before it are hidden. -/
def traceTokens (atoms : List Atom) (range : Extent) : Int → List Token → Trace
  | _, [] => ⟨[], none⟩
  | resume, t :: ts =>
    if t.start < resume then traceTokens atoms range resume ts
    else match Atom.startingAt atoms t.start with
      | some a => (traceTokens atoms range a.span.stop ts).prepend [.text a.span a.width]
      | none =>
        let here := t.events atoms range ts
        match here.fault with
        | some _ => here
        | none => (traceTokens atoms range resume ts).prepend here.events

/-- The events at the positions of an extent. -/
def Source.trace (src : Source) (e : Extent) (atoms : List Atom) : Trace :=
  match src.readTokens e with
  | .error f => .stopped [] f
  | .ok ts => traceTokens atoms e e.start ts

end DiagLayout
