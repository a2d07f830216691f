import DiagLayout.Text.Quoted

/-!
# Structured output

A `Document` is a value of the JSON data format. `Document.pretty` writes it with each item and
field on a line of its own, two spaces further in than what it belongs to.
-/

namespace DiagLayout

/-- A value of the JSON data format. -/
inductive Document where
  | null
  | bool (b : Bool)
  | int (n : Int)
  | text (t : Text)
  | list (items : List Document)
  | record (fields : List (String × Document))
  deriving Inhabited

namespace Document

/-- One character of a text in a document. -/
def escapedChar (c : Char) : Text :=
  if c = '"' then ['\\', '"']
  else if c = '\\' then ['\\', '\\']
  else if c = '\n' then ['\\', 'n']
  else if c = '\r' then ['\\', 'r']
  else if c = '\t' then ['\\', 't']
  else if c.toNat = 8 then ['\\', 'b']
  else if c.toNat = 12 then ['\\', 'f']
  else if c.toNat < 0x20 then '\\' :: 'u' :: Text.hexDigits 4 c.toNat
  else [c]

/-- A text between double quotation marks. -/
def escaped (t : Text) : Text := '"' :: t.flatMap escapedChar ++ ['"']

/-- A line break and the indent of a level. -/
def newLine (level : Nat) : Text := '\n' :: List.replicate (2 * level) ' '

/-- Parts between brackets, on lines of their own at the next level. -/
def block (opening closing : Char) (level : Nat) (parts : List Text) : Text :=
  if parts.isEmpty then [opening, closing]
  else opening :: List.intercalate [','] (parts.map (newLine (level + 1) ++ ·)) ++
    newLine level ++ [closing]

mutual

/-- The document, where its first line is already indented for `level`. -/
def pretty (level : Nat) : Document → Text
  | null => "null".toList
  | bool b => (if b then "true" else "false").toList
  | int n => (toString n).toList
  | text t => escaped t
  | list items => block '[' ']' level (prettyItems (level + 1) items)
  | record fields => block '\x7b' '\x7d' level (prettyFields (level + 1) fields)

/-- The items of a list. -/
def prettyItems (level : Nat) : List Document → List Text
  | [] => []
  | d :: ds => pretty level d :: prettyItems level ds

/-- The fields of a record. -/
def prettyFields (level : Nat) : List (String × Document) → List Text
  | [] => []
  | (name, d) :: fields =>
    (escaped name.toList ++ ':' :: ' ' :: pretty level d) :: prettyFields level fields

end

end Document

end DiagLayout
