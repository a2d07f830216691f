import DiagLayout.Text.Basic

/-!
# Corpus

Texts made up for trying out the layout: nested template types, and diagnostic lines that quote
them. They are made from a sequence of numbers, which `draw` gives one after the other; each
decision takes one number. `Corpus.typeName` and `Corpus.diagnosticLine` work for every sequence.

`Corpus.congruential` is a linear congruential sequence for use as `draw`. It gives numbers below
`Corpus.span`. It is a sequence of this library's own, there so that a corpus can be had from a seed
(`Corpus.typeNames`, `Corpus.diagnosticLines`); what is proved of a corpus is proved of every
`draw`, and nothing rests on the numbers that this one gives.
-/

namespace DiagLayout.Corpus

/-- Names of templates. -/
def templates : List Text :=
  ["std::vector".toList, "std::map".toList, "std::pair".toList, "std::tuple".toList,
   "std::unique_ptr".toList, "boost::hana::basic_tuple".toList, "detail::wrap".toList,
   "Box".toList]

/-- Names of types without arguments. -/
def leaves : List Text :=
  ["int".toList, "double".toList, "char".toList, "bool".toList, "std::size_t".toList,
   "Foo".toList, "ns::Bar".toList, "unsigned long".toList]

/-- The numbers drawn are thought of as spread over this many. -/
def span : Nat := 0x800000

section Draws

variable {σ : Type} (draw : StateM σ Nat)

/-- One of the texts. -/
def choose (ts : List Text) : StateM σ Text := do
  let n ← draw
  return ts.getD (n % ts.length) []

/-- A number from `low` to `high`. -/
def between (low high : Nat) : StateM σ Nat := do
  let n ← draw
  return low + n % (high - low + 1)

/-- Yes for one in `parts` of the numbers. -/
def oneIn (parts : Nat) : StateM σ Bool := do
  let n ← draw
  return decide (n < span / parts)

/-- The results of an action done `n` times. -/
def times {α : Type} (action : StateM σ α) : Nat → StateM σ (List α)
  | 0 => return []
  | n + 1 => do
    let a ← action
    let more ← times action n
    return a :: more

/-- The arguments of a template between angle brackets. Two closing brackets may be kept apart by a
space, as some compilers do. -/
def arguments (args : List Text) (gap : Bool) : Text :=
  '<' :: List.intercalate [',', ' '] args ++ (if gap then [' '] else []) ++ ['>']

/-- The last argument ends in a closing bracket. -/
def endsInBracket (args : List Text) : Bool :=
  (List.intercalate [',', ' '] args).getLast? == some '>'

/-- A type with at most `depth` brackets around each other. -/
def typeName : Nat → StateM σ Text
  | 0 => choose draw leaves
  | depth + 1 => do
    if ← oneIn draw 4 then choose draw leaves
    else
      let count ← between draw 1 3
      let args ← times (typeName depth) count
      let gap ← if endsInBracket args then oneIn draw 2 else pure false
      let template ← choose draw templates
      return template ++ arguments args gap

/-- A number in decimal digits. -/
def decimal (n : Nat) : Text := (toString n).toList

/-- The start of the diagnostic line number `i`. -/
def place (i : Nat) : StateM σ Text := do
  let line ← between draw 1 999
  let column ← between draw 1 80
  return "src/file".toList ++ decimal i ++ ".cpp:".toList ++ decimal line ++ ':' :: decimal column

/-- A function and what its parameters stand for. -/
def instantiation (argument t u : Text) : Text :=
  "void consume(".toList ++ argument ++ ") [with T = ".toList ++ t ++ "; U = ".toList ++ u ++ [']']

/-- The diagnostic line number `i`. -/
def diagnosticLine (i : Nat) : StateM σ Text := do
  let argument ← typeName draw 4
  if ← oneIn draw 2 then
    let t ← typeName draw 3
    let u ← typeName draw 2
    let start ← place draw i
    return start ++ ":   In instantiation of ‘".toList ++ instantiation argument t u ++ "’:".toList
  else
    let start ← place draw i
    return start ++ ": error: no matching function for call to ‘consume(".toList ++ argument ++
      ")’".toList

/-- Diagnostic lines numbered from `i` on. -/
def diagnosticLinesFrom (i : Nat) : Nat → StateM σ (List Text)
  | 0 => return []
  | n + 1 => do
    let line ← diagnosticLine draw i
    let more ← diagnosticLinesFrom (i + 1) n
    return line :: more

end Draws

/-! ### A sequence of numbers -/

/-- The modulus of the congruential sequence. -/
def modulus : Nat := 0x80000000

/-- The next number of the congruential sequence. -/
def congruential : StateM Nat Nat := fun state =>
  let next := (state * 1103515245 + 12345) % modulus
  (next / (modulus / span), next)

/-- The state that a seed stands for. -/
def seeded (seed : Int) : Nat := (seed % modulus).toNat

/-- Types made from a seed. -/
def typeNames (seed : Int) (count maxDepth : Nat) : List Text :=
  (times (typeName congruential maxDepth) count (seeded seed)).1

/-- Diagnostic lines made from a seed. -/
def diagnosticLines (seed : Int) (count : Nat) : List Text :=
  (diagnosticLinesFrom congruential 0 count (seeded seed)).1

end DiagLayout.Corpus
