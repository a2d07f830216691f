import DiagLayout.Token

/-!
# Grammars

A grammar is a term that describes the starts of a source. `Grammar.consume` reads a grammar at the
start of the glyphs and gives the number of glyphs read, or nothing if the grammar does not apply
there. Alternatives are tried in order and the first that applies is taken; repetition takes as much
as it can and stops where it would read nothing more.

`Grammar.parse` reads at a position of a source. When the grammar does not apply, the position is
the one given, so that something else can be tried there.
-/

namespace DiagLayout

/-- Descriptions of the starts of a source. -/
inductive Grammar where
  /-- Nothing, everywhere. -/
  | empty
  /-- Applies nowhere. -/
  | fail
  /-- One after the other. -/
  | seq (first second : Grammar)
  /-- The first, or else the second. -/
  | alt (first second : Grammar)
  /-- The grammar where it applies, or else nothing. -/
  | opt (g : Grammar)
  /-- The grammar once or more. -/
  | many (g : Grammar)
  /-- A whole run of glyphs of one kind, at least one. -/
  | run (k : Kind)
  /-- A whole run of symbol glyphs, with this text. -/
  | word (t : Text)
  /-- A whole group that starts with this character. -/
  | group (opener : Char)
  /-- A whole group whose text starts with these characters. -/
  | groupWith (opener : Char) (more : Text)
  deriving DecidableEq, Repr, Inhabited

namespace Grammar

/-- The total length of the repetitions of `step`, as long as each reads something. -/
def repeated (step : List Glyph → Option Nat) : List Glyph → Nat
  | [] => 0
  | g :: gs =>
    match step (g :: gs) with
    | some (n + 1) => (n + 1) + repeated step (gs.drop n)
    | _ => 0
termination_by gs => gs.length
decreasing_by simp only [List.length_drop, List.length_cons]; omega

/-- The length of a whole group at the start of the glyphs, if its first character is `c`. -/
def groupLength? (c : Char) : List Glyph → Option Nat
  | [] => none
  | g :: gs => if g.char = c then (groupEnd? (g :: gs)).map (· + 1) else none

/-- The number of glyphs that the grammar reads at the start of `gs`. -/
def consume : Grammar → List Glyph → Option Nat
  | empty, _ => some 0
  | fail, _ => none
  | seq g h, gs => do
    let n ← g.consume gs
    let m ← h.consume (gs.drop n)
    some (n + m)
  | alt g h, gs => (g.consume gs).or (h.consume gs)
  | opt g, gs => some ((g.consume gs).getD 0)
  | many g, gs => do
    let n ← g.consume gs
    some (n + repeated g.consume (gs.drop n))
  | run k, gs => if runLength k gs = 0 then none else some (runLength k gs)
  | word t, gs =>
    let n := runLength .symbol gs
    if Glyph.text (gs.take n) = t then some n else none
  | group c, gs => groupLength? c gs
  | groupWith c more, gs =>
    if Text.startsWith (Glyph.text gs) (c :: more) then groupLength? c gs else none

/-- Whether the grammar applies at the position `pos`, and the position after what it reads. -/
def parse (g : Grammar) (src : Source) (pos : Nat) : Bool × Nat :=
  match g.consume (src.drop pos) with
  | some n => (true, pos + n)
  | none => (false, pos)

/-! ### Derived forms -/

/-- All the grammars, one after the other. -/
def seqs (gs : List Grammar) : Grammar := gs.foldr seq empty

/-- The first of the grammars that applies. -/
def alts (gs : List Grammar) : Grammar := gs.foldr alt fail

/-- A whole run of symbol glyphs. -/
def symbol : Grammar := run .symbol

/-- A whole run of spaces. -/
def spaces : Grammar := run .space

/-- One of the texts, as a whole run of symbol glyphs. -/
def anyWord (ts : List Text) : Grammar := alts (ts.map word)

/-- A text as a whole run of symbol glyphs, and the spaces that have to follow it. -/
def spacedWord (t : Text) : Grammar := seqs [word t, spaces]

/-- A whole group that starts with the text `opener`: nowhere, unless that is one character. -/
def groupOf : Text → Grammar
  | [c] => group c
  | _ => fail

/-- A whole group whose text starts with `opening`, which has to be given. -/
def groupStarting : Text → Except Fault Grammar
  | [] => .error .emptyOpening
  | c :: more => .ok (groupWith c more)

end Grammar

end DiagLayout
