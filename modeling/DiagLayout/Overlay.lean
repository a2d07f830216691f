import DiagLayout.Fold

/-!
# Overlays

Instructions and placeholders are laid over a text: at each offset, in increasing order, the line
breaks come first and then the placeholder, after which the text goes on behind the hidden span.
Offsets that are already passed are left out.
-/

namespace DiagLayout

/-- The increasing offsets with `o` among them. -/
def insertOffset (o : Int) : List Int → List Int
  | [] => [o]
  | p :: ps => if o < p then o :: p :: ps else if o = p then p :: ps else p :: insertOffset o ps

/-- The offsets at which something is laid over the text, increasing. -/
def overlayOffsets (instructions : List Instruction) (hidden : List Placeholder) : List Int :=
  (instructions.map (·.offset) ++ hidden.map (·.span.start)).foldr insertOffset []

/-- The line breaks at an offset, in the order of the instructions. -/
def breaksAt (instructions : List Instruction) (o : Int) : Text :=
  (instructions.filter fun i => i.offset == o).flatMap fun i =>
    '\n' :: List.replicate i.indent.toNat ' '

/-- The placeholder at an offset; of several the last. -/
def placeholderAt (hidden : List Placeholder) (o : Int) : Option Placeholder :=
  (hidden.filter fun h => h.span.start == o).getLast?

/-- The text from the bound `pos` on, laid over at the given offsets. -/
def overlayFrom (t : Text) (instructions : List Instruction) (hidden : List Placeholder)
    (pos : Int) : List Int → Text
  | [] => t.sliceFrom pos
  | o :: os =>
    if o < pos then overlayFrom t instructions hidden pos os
    else t.slice pos o ++ breaksAt instructions o ++
      match placeholderAt hidden o with
      | some h => h.text ++ overlayFrom t instructions hidden h.span.stop os
      | none => overlayFrom t instructions hidden o os

/-- The text with the instructions carried out and the placeholders in place. -/
def overlay (t : Text) (instructions : List Instruction) (hidden : List Placeholder) : Text :=
  overlayFrom t instructions hidden 0 (overlayOffsets instructions hidden)

end DiagLayout
