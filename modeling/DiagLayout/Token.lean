import DiagLayout.Source

/-!
# Tokens

A stretch of glyphs is cut into tokens that leave nothing out: a run of separators with the spaces
after it, a single opener, a closer with the spaces between it and another closer, a run of spaces,
or a run of symbol glyphs. The kind of a token is the kind of its first glyph.
-/

namespace DiagLayout

/-- A token: its kind, the position of its first glyph, and its glyphs. -/
structure Token where
  kind : Kind
  start : Nat
  glyphs : List Glyph
  deriving DecidableEq, Repr, Inhabited

namespace Token

/-- The position after the token. -/
def stop (t : Token) : Nat := t.start + t.glyphs.length

/-- The positions of the token. -/
def extent (t : Token) : Extent := ⟨t.start, t.stop⟩

/-- The characters of the token. -/
def text (t : Token) : Text := Glyph.text t.glyphs

/-- The token as shown in messages. -/
def format (t : Token) : String :=
  "Token(" ++ t.kind.name ++ ", " ++ t.extent.span.format ++ ")"

end Token

/-- The number of glyphs of kind `k` at the start. -/
def runLength (k : Kind) (gs : List Glyph) : Nat := (gs.takeWhile (Glyph.isKind k)).length

/-- The number of glyphs after the first that belong to its token. -/
def tokenTail (k : Kind) (gs : List Glyph) : Nat :=
  match k with
  | .separator =>
    let separators := runLength .separator gs
    separators + runLength .space (gs.drop separators)
  | .opener => 0
  | .closer =>
    let spaces := runLength .space gs
    if (gs.drop spaces).head?.any (Glyph.isKind .closer) then spaces else 0
  | .space => runLength .space gs
  | .symbol => runLength .symbol gs

/-- The tokens of the glyphs, the first of which is at position `start`. -/
def tokensFrom (start : Nat) : List Glyph → List Token
  | [] => []
  | g :: gs =>
    let n := tokenTail g.kind gs
    ⟨g.kind, start, g :: gs.take n⟩ :: tokensFrom (start + (n + 1)) (gs.drop n)
termination_by gs => gs.length
decreasing_by simp only [List.length_drop, List.length_cons]; omega

namespace Source

/-- The tokens at the positions of an extent that does not reach past the end. -/
def tokens (src : Source) (e : Extent) : List Token := tokensFrom e.start (src.window e)

/-- The tokens at the positions of an extent. -/
def readTokens (src : Source) (e : Extent) : Except Fault (List Token) :=
  if src.overruns e then .error .pastEnd else .ok (src.tokens e)

theorem readTokens_eq_ok {src : Source} {e : Extent} (h : e.stop ≤ src.length) :
    src.readTokens e = .ok (src.tokens e) := by
  rw [readTokens, overruns_eq_false h]
  rfl

end Source

end DiagLayout
