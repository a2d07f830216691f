import DiagLayout.Text.Basic

/-!
# Glyphs

A glyph is a character together with the part it plays: it separates items of a list, opens or
closes a group with one of four brackets, is a space, or belongs to a symbol. `baseClass` gives the
part that a character plays by itself.
-/

namespace DiagLayout

/-- The four kinds of brackets. -/
inductive Bracket where
  | paren
  | angle
  | square
  | curly
  deriving DecidableEq, Repr, Inhabited

/-- The part that a character plays. -/
inductive CharClass where
  | separator
  | opener (b : Bracket)
  | closer (b : Bracket)
  | space
  | symbol
  deriving DecidableEq, Repr, Inhabited

/-- The part that a character or a token plays, whatever the bracket. -/
inductive Kind where
  | separator
  | opener
  | closer
  | space
  | symbol
  deriving DecidableEq, Repr, Inhabited

/-- The kind of a class. -/
def CharClass.kind : CharClass → Kind
  | separator => .separator
  | opener _ => .opener
  | closer _ => .closer
  | space => .space
  | symbol => .symbol

/-- The name of a kind. -/
def Kind.name : Kind → String
  | separator => "punct"
  | opener => "open"
  | closer => "close"
  | space => "space"
  | symbol => "symbol"

/-- The part that a character plays by itself. -/
def baseClass : Char → CharClass
  | ',' | ';' => .separator
  | '(' => .opener .paren
  | '<' => .opener .angle
  | '[' => .opener .square
  | '\x7b' => .opener .curly
  | ')' => .closer .paren
  | '>' => .closer .angle
  | ']' => .closer .square
  | '\x7d' => .closer .curly
  | ' ' | '\t' | '\r' | '\n' => .space
  | _ => .symbol

/-- A character and the part it plays. -/
structure Glyph where
  char : Char
  cls : CharClass
  deriving DecidableEq, Repr, Inhabited

namespace Glyph

/-- The kind of a glyph. -/
def kind (g : Glyph) : Kind := g.cls.kind

/-- The glyph is of the given kind. -/
def isKind (k : Kind) (g : Glyph) : Bool := g.kind == k

end Glyph

/-- The characters of a list of glyphs. -/
def Glyph.text (gs : List Glyph) : Text := gs.map Glyph.char

end DiagLayout
