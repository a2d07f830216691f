import DiagLayout.Text.Alphanumeric
import DiagLayout.Text.Basic

/-!
# Quotes of a line

Compilers put C++ between quotation marks: a left and a right one, or two apostrophes. An apostrophe
after a letter or a number opens no quote, and neither does one that is never closed. A left mark
that is never closed ends the search.

Between apostrophes there may be character literals. Their apostrophes do not close the quote; a
literal stands after one of a few characters.
-/

namespace DiagLayout

/-- The text between two quotation marks, and the position of its first character in the line. -/
structure Quote where
  start : Nat
  body : Text
  deriving DecidableEq, Repr, Inhabited

namespace Quote

/-- The position of the closing mark. -/
def stop (q : Quote) : Nat := q.start + q.body.length

/-- A character literal may stand after this character. -/
def leadsLiteral (c : Char) : Bool := "<(,[\x7b= ".toList.contains c

/-- The number of characters of a character literal after its first apostrophe. -/
def literalTail? : Text → Option Nat
  | a :: b :: more =>
    if a ≠ '\'' ∧ b = '\'' then some 2
    else if a = '\\' ∧ more.head? = some '\'' then some 3
    else none
  | _ => none

/-- The number of characters before the apostrophe that closes a quote, where `before` is the
character before the text. -/
def closingApostrophe? (before : Char) : Text → Option Nat
  | [] => none
  | c :: t =>
    if c = '\'' then
      match (if leadsLiteral before then literalTail? t else none) with
      | some n => (closingApostrophe? '\'' (t.drop n)).map (· + (n + 1))
      | none => some 0
    else (closingApostrophe? c t).map (· + 1)
termination_by t => t.length
decreasing_by all_goals simp only [List.length_drop, List.length_cons]; omega

/-- The quote of the first `n` characters of `t`, unless it is empty. -/
def ofLength (start n : Nat) (t : Text) : List Quote :=
  if n = 0 then [] else [⟨start, t.take n⟩]

/-- The quotes of a text whose first character is at position `pos`, after the character
`before`. -/
def allFrom (pos : Nat) (before : Option Char) : Text → List Quote
  | [] => []
  | c :: t =>
    if c = '‘' then
      match t.findIdx? (· == '’') with
      | none => []
      | some n => ofLength (pos + 1) n t ++ allFrom (pos + n + 2) (some '’') (t.drop (n + 1))
    else if c = '\'' ∧ before.any Text.isAlphanumeric = false then
      match closingApostrophe? c t with
      | none => allFrom (pos + 1) (some c) t
      | some n => ofLength (pos + 1) n t ++ allFrom (pos + n + 2) (some c) (t.drop (n + 1))
    else allFrom (pos + 1) (some c) t
termination_by t => t.length
decreasing_by all_goals simp only [List.length_drop, List.length_cons]; omega

/-- The quotes of a line, from left to right. -/
def all (line : Text) : List Quote := allFrom 0 none line

end Quote

end DiagLayout
