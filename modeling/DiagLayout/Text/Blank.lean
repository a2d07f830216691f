import DiagLayout.Text.Ranges

/-!
# Blank characters

White space in the wide sense: the white space of every script, and the control characters that
separate lines, files, groups, records and units.
-/

namespace DiagLayout.Text

/-- Code points of the blank characters. -/
def blankRanges : List (Nat × Nat) :=
  [(0x9, 0xD), (0x1C, 0x20), (0x85, 0x85), (0xA0, 0xA0), (0x1680, 0x1680), (0x2000, 0x200A),
   (0x2028, 0x2029), (0x202F, 0x202F), (0x205F, 0x205F), (0x3000, 0x3000)]

/-- The character is white space of some script. -/
def isBlank (c : Char) : Bool := inRanges blankRanges c.toNat

/-- White space of the ASCII range: tab to carriage return, and the space. -/
def isAsciiBlank (c : Char) : Bool := c == ' ' || (9 ≤ c.toNat && c.toNat ≤ 13)

end DiagLayout.Text
