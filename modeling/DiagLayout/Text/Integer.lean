import DiagLayout.Text.Basic
import DiagLayout.Text.Blank
import DiagLayout.Text.Digit

/-!
# Reading integers

An integer is written as an optional sign and decimal digits of any script, between white space.
A single underscore may stand between two digits. At most 4300 digits are read.
-/

namespace DiagLayout.Text

/-- The greatest number of digits that are read. -/
def maxDigits : Nat := 4300

/-- The ASCII character that stands for `c` in a number: blanks and digits of other scripts become
the space and the ASCII digits, and nothing else outside ASCII has a meaning. -/
def asciiForm? (c : Char) : Option Char :=
  if c.toNat < 127 then some c
  else if isBlank c then some ' '
  else (digitValue? c).map Nat.digitChar

/-- The text without white space at its ends. -/
def trimAsciiBlanks (t : Text) : Text :=
  ((t.dropWhile isAsciiBlank).reverse.dropWhile isAsciiBlank).reverse

/-- The number that a text of ASCII digits and single underscores between them stands for. -/
def readNat? (t : Text) : Option Nat :=
  let groups := t.splitOn '_'
  let digits := groups.flatten
  if groups.all (fun g => !g.isEmpty && g.all Char.isDigit) && digits.length ≤ maxDigits then
    some (digits.foldl (fun n c => 10 * n + (c.toNat - '0'.toNat)) 0)
  else none

/-- The integer that a text stands for. -/
def readInt? (t : Text) : Option Int := do
  let ascii ← t.mapM asciiForm?
  match trimAsciiBlanks ascii with
  | '+' :: digits => (readNat? digits).map fun n => (n : Int)
  | '-' :: digits => (readNat? digits).map fun n => -(n : Int)
  | digits => (readNat? digits).map fun n => (n : Int)

end DiagLayout.Text
