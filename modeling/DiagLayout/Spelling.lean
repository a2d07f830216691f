import DiagLayout.Text.Basic
import DiagLayout.Text.Blank
import DiagLayout.Text.Alphanumeric

/-!
# Spellings that read as one symbol

Some names hold brackets or commas that open, close and separate nothing: character literals,
operator names, arrows, and the labels that compilers print for lambdas and unnamed entities. A
`Spelling` is such a form. `Spelling.rest?` reads one at the start of a text and gives what follows
it; `Spelling.covered` marks the characters of all its occurrences, found from left to right and
without overlap.
-/

namespace DiagLayout

/-- The forms of names that may hold brackets and separators. -/
inductive Spelling where
  /-- A character between apostrophes, possibly after a backslash. -/
  | charLiteral
  /-- The word `operator` and what it names. -/
  | operatorName
  /-- The arrows of member access and of trailing return types. -/
  | arrow
  /-- A lambda named by its parameters. -/
  | lambdaLabel
  /-- An entity without a name, between curly or angle brackets. -/
  | anonymousLabel
  /-- A lambda or an entity without a name, named by its place in a file. -/
  | placeLabel
  deriving DecidableEq, Repr, Inhabited

namespace Spelling

/-- All spellings. -/
def all : List Spelling :=
  [charLiteral, operatorName, arrow, lambdaLabel, anonymousLabel, placeLabel]

/-! ### The forms -/

/-- The rest after a character literal. -/
def afterCharLiteral? : Text → Option Text
  | '\'' :: '\\' :: c :: '\'' :: rest => if c = '\n' then none else some rest
  | '\'' :: c :: '\'' :: rest => if c = '\'' ∨ c = '\\' then none else some rest
  | _ => none

/-- The operators that hold a bracket or a comma; of two that start alike the longer is first. -/
def operatorSigns : List Text :=
  ["()".toList, "[]".toList, "<=>".toList, "<<=".toList, ">>=".toList, "<<".toList, ">>".toList,
   "<=".toList, ">=".toList, "->*".toList, "->".toList, "<".toList, ">".toList, ",".toList]

/-- The rest after an operator: a sign, or an allocation word with its square brackets. -/
def afterOperator? (t : Text) : Option Text :=
  match Text.afterAny? operatorSigns t with
  | some rest => some rest
  | none => do
    let rest ← Text.afterAny? ["new".toList, "delete".toList] t
    Text.after? "[]".toList (rest.dropWhile Text.isBlank)

/-- The rest after an operator name that starts a word; `before` is the character before it. -/
def afterOperatorName? (before : Option Char) (t : Text) : Option Text := do
  let rest ← Text.after? "operator".toList t
  if before.any Text.isWord then none
  else afterOperator? (rest.dropWhile Text.isBlank)

/-- The rest after an arrow. -/
def afterArrow? (t : Text) : Option Text :=
  (Text.after? "->".toList t).map fun rest => (Text.after? "*".toList rest).getD rest

/-- The character is no parenthesis. -/
def isPlain (c : Char) : Bool := c != '(' && c != ')'

/-- What follows the longest start of a text made of plain characters and of parentheses around
plain characters. -/
def afterParameters : Text → Text
  | [] => []
  | c :: t =>
    if c = '(' then
      match _h : t.dropWhile isPlain with
      | ')' :: rest => afterParameters rest
      | _ => c :: t
    else if c = ')' then c :: t
    else afterParameters t
termination_by t => t.length
decreasing_by
  · have := (List.dropWhile_sublist (l := t) isPlain).length_le
    simp_all; omega
  · simp

/-- The rest after a lambda label. -/
def afterLambdaLabel? (t : Text) : Option Text := do
  let rest ← Text.after? "<lambda(".toList t
  Text.after? ")>".toList (afterParameters rest)

/-- The rest after the word that says what an unnamed entity is, if it is there. -/
def afterEntityWord (t : Text) : Text :=
  (Text.afterAny? [" class".toList, " struct".toList, " union".toList, " enum".toList] t).getD t

/-- The words for an entity without a name. -/
def anonymousWords : List Text := ["anonymous".toList, "unnamed".toList]

/-- The rest after an anonymous label. -/
def afterAnonymousLabel? (t : Text) : Option Text :=
  match Text.after? "\x7banonymous\x7d".toList t with
  | some rest => some rest
  | none => do
    let rest ← Text.after? "<".toList t
    let rest ← Text.afterAny? anonymousWords rest
    Text.after? ">".toList (afterEntityWord rest)

/-- The rest after what a place label names. -/
def afterPlaceSubject? (t : Text) : Option Text :=
  match Text.after? "lambda".toList t with
  | some rest => some rest
  | none => (Text.afterAny? anonymousWords t).map afterEntityWord

/-- The rest after a label with a place in a file. -/
def afterPlace? (t : Text) : Option Text := do
  let rest ← Text.after? "(".toList t
  let rest ← afterPlaceSubject? rest
  let rest ← Text.after? " at ".toList rest
  Text.after? ")".toList (rest.dropWhile isPlain)

/-- The rest after a place label, or after the label of an unnamed namespace. -/
def afterPlaceLabel? (t : Text) : Option Text :=
  match afterPlace? t with
  | some rest => some rest
  | none => Text.after? "(anonymous namespace)".toList t

/-- What follows the spelling at the start of `t`, where `before` is the character before `t`. -/
def rest? (before : Option Char) (t : Text) : Spelling → Option Text
  | charLiteral => afterCharLiteral? t
  | operatorName => afterOperatorName? before t
  | arrow => afterArrow? t
  | lambdaLabel => afterLambdaLabel? t
  | anonymousLabel => afterAnonymousLabel? t
  | placeLabel => afterPlaceLabel? t

/-! ### Occurrences -/

/-- The number of characters of the spelling at the start of `t`. -/
def length? (s : Spelling) (before : Option Char) (t : Text) : Option Nat :=
  (s.rest? before t).map (t.length - ·.length)

/-- Which characters belong to an occurrence of the spelling: `left` counts the characters that
the occurrence begun before the text still covers, and `before` is the character before it. -/
def coveredFrom (s : Spelling) : Nat → Option Char → Text → List Bool
  | _, _, [] => []
  | left + 1, _, c :: t => true :: coveredFrom s left (some c) t
  | 0, before, c :: t =>
    match s.length? before (c :: t) with
    | some (n + 1) => true :: coveredFrom s n (some c) t
    | _ => false :: coveredFrom s 0 (some c) t

/-- Which characters of the text belong to an occurrence of the spelling. -/
def covered (s : Spelling) (t : Text) : List Bool := s.coveredFrom 0 none t

theorem length_coveredFrom (s : Spelling) (left : Nat) (before : Option Char) (t : Text) :
    (s.coveredFrom left before t).length = t.length := by
  induction t generalizing left before with
  | nil => cases left <;> rfl
  | cons c t ih =>
    cases left with
    | succ left => simp [coveredFrom, ih]
    | zero =>
      unfold coveredFrom
      split <;> simp [ih]

@[simp] theorem length_covered (s : Spelling) (t : Text) : (s.covered t).length = t.length :=
  length_coveredFrom s 0 none t

end Spelling

/-- Which characters of the text belong to a spelling that reads as one symbol. -/
def spelled (t : Text) : List Bool :=
  Spelling.all.foldl (fun marks s => List.zipWith or marks (s.covered t)) (t.map fun _ => false)

@[simp] theorem length_spelled (t : Text) : (spelled t).length = t.length := by
  simp [spelled, Spelling.all]

end DiagLayout
