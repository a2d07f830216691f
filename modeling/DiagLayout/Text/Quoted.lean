import DiagLayout.Text.Basic
import DiagLayout.Text.Printable

/-!
# Quoted texts

A text is shown in a message between quotation marks, on one line and with every character
recognisable. The mark is the apostrophe, or the double quotation mark if the text has an
apostrophe and no double mark. The mark and the backslash are escaped by a backslash, and a
character that is not printable is written by name (tab, line feed, carriage return) or by its
hexadecimal code point.
-/

namespace DiagLayout.Text

/-- The last `width` hexadecimal digits of `n`, in lower case. -/
def hexDigits : Nat → Nat → Text
  | 0, _ => []
  | width + 1, n => hexDigits width (n / 16) ++ [Nat.digitChar (n % 16)]

/-- The code point of `c` in the shortest of the forms with two, four and eight digits. -/
def codePointEscape (c : Char) : Text :=
  let n := c.toNat
  if n < 0x100 then '\\' :: 'x' :: hexDigits 2 n
  else if n < 0x10000 then '\\' :: 'u' :: hexDigits 4 n
  else '\\' :: 'U' :: hexDigits 8 n

/-- One character of a text between two marks `mark`. -/
def quotedChar (mark c : Char) : Text :=
  if c = mark ∨ c = '\\' then ['\\', c]
  else if c = '\t' then ['\\', 't']
  else if c = '\n' then ['\\', 'n']
  else if c = '\r' then ['\\', 'r']
  else if isPrintable c then [c]
  else codePointEscape c

/-- The quotation mark for a text. -/
def quotationMark (t : Text) : Char :=
  if t.contains '\'' && !t.contains '"' then '"' else '\''

/-- The text between quotation marks. -/
def quoted (t : Text) : String :=
  let mark := quotationMark t
  String.ofList (mark :: t.flatMap (quotedChar mark) ++ [mark])

end DiagLayout.Text
