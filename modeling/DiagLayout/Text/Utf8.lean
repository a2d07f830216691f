import DiagLayout.Text.Basic

/-!
# Bytes read as text

Bytes are read as UTF-8. Wherever they are ill-formed, each longest start of a well-formed sequence
becomes one replacement character, and so does each byte that starts none. Line ends of every kind
become line feeds.
-/

namespace DiagLayout.Text

/-- The character that stands for what cannot be decoded. -/
def replacement : Char := '�'

/-- A character begun: its value so far, the range of the next byte and the number of bytes owed. -/
structure Begun where
  value : Nat
  low : Nat
  high : Nat
  owed : Nat

/-- What the first byte of a sequence of two to four bytes begins. -/
def begin? (b : Nat) : Option Begun :=
  if 0xC2 ≤ b ∧ b ≤ 0xDF then some ⟨b - 0xC0, 0x80, 0xBF, 1⟩
  else if b = 0xE0 then some ⟨0, 0xA0, 0xBF, 2⟩
  else if b = 0xED then some ⟨0xD, 0x80, 0x9F, 2⟩
  else if 0xE1 ≤ b ∧ b ≤ 0xEF then some ⟨b - 0xE0, 0x80, 0xBF, 2⟩
  else if b = 0xF0 then some ⟨0, 0x90, 0xBF, 3⟩
  else if b = 0xF4 then some ⟨4, 0x80, 0x8F, 3⟩
  else if 0xF1 ≤ b ∧ b ≤ 0xF3 then some ⟨b - 0xF0, 0x80, 0xBF, 3⟩
  else none

/-- What a byte between two characters gives at once, and what it begins. -/
def firstByte (b : Nat) : Text × Option Begun :=
  if b < 0x80 then ([Char.ofNat b], none)
  else match begin? b with
    | some p => ([], some p)
    | none => ([replacement], none)

/-- The text of the bytes, where `pending` is the character begun before them. -/
def decodeFrom : Option Begun → List UInt8 → Text
  | none, [] => []
  | some _, [] => [replacement]
  | none, b :: bytes =>
    (firstByte b.toNat).1 ++ decodeFrom (firstByte b.toNat).2 bytes
  | some p, b :: bytes =>
    if p.low ≤ b.toNat ∧ b.toNat ≤ p.high then
      let value := 64 * p.value + (b.toNat - 0x80)
      if p.owed ≤ 1 then Char.ofNat value :: decodeFrom none bytes
      else decodeFrom (some ⟨value, 0x80, 0xBF, p.owed - 1⟩) bytes
    else replacement :: (firstByte b.toNat).1 ++ decodeFrom (firstByte b.toNat).2 bytes

/-- The text of the bytes. -/
def decodeUtf8 (bytes : List UInt8) : Text := decodeFrom none bytes

/-- The text with a line feed for each carriage return, alone or before a line feed. -/
def normalizeNewlines : Text → Text
  | [] => []
  | '\r' :: '\n' :: t => '\n' :: normalizeNewlines t
  | '\r' :: t => '\n' :: normalizeNewlines t
  | c :: t => c :: normalizeNewlines t

/-- The text of the bytes, with line feeds for line ends. -/
def ofBytes (bytes : List UInt8) : Text := normalizeNewlines (decodeUtf8 bytes)

end DiagLayout.Text
