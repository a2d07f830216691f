/-!
# Text

A text is a list of characters. Offsets, lengths and widths count characters.

* `Text.after?`: what follows a word that a text starts with;
* `Text.occursIn`: whether a word occurs in a text;
* `Text.slice`: the characters between two bounds, where a negative bound counts from the end.
-/

namespace DiagLayout

/-- A text, character by character. -/
abbrev Text := List Char

namespace Text

/-- What follows `word` in `t`, if `t` starts with `word`. -/
def after? : Text → Text → Option Text
  | [], t => some t
  | _ :: _, [] => none
  | c :: word, d :: t => if c = d then after? word t else none

/-- The rest after the first of `words` that `t` starts with. -/
def afterAny? (words : List Text) (t : Text) : Option Text :=
  words.findSome? fun word => after? word t

/-- The text starts with `word`. -/
def startsWith (t word : Text) : Bool := (after? word t).isSome

/-- `word` occurs somewhere in the text. -/
def occursIn (word : Text) : Text → Bool
  | [] => word.isEmpty
  | c :: t => startsWith (c :: t) word || occursIn word t

/-- The text without the copies of `c` at its end. -/
def trimEnd (c : Char) (t : Text) : Text :=
  (t.reverse.dropWhile (· == c)).reverse

/-- Position of a bound in a text of `n` characters: a negative bound counts from the end, and
every bound is moved to the nearest end of the text. -/
def boundary (n : Nat) (i : Int) : Nat :=
  if i < 0 then (n + i).toNat else min i.toNat n

/-- The characters from the bound `i` up to the bound `j`. -/
def slice (t : Text) (i j : Int) : Text :=
  (t.take (boundary t.length j)).drop (boundary t.length i)

/-- The characters from the bound `i` on. -/
def sliceFrom (t : Text) (i : Int) : Text :=
  t.drop (boundary t.length i)

theorem after?_append (word t : Text) : after? word (word ++ t) = some t := by
  induction word with
  | nil => rfl
  | cons c word ih => simp [after?, ih]

theorem eq_append_of_after? {word t rest : Text} (h : after? word t = some rest) :
    t = word ++ rest := by
  fun_induction after? word t with
  | case1 t => simpa using h
  | case2 => simp at h
  | case3 c word t ih => simp [ih h]
  | case4 => simp at h

/-- A check of the characters one by one says what holds of each of them. -/
theorem forall_mem_of_all {p : Char → Prop} [DecidablePred p] {t : Text}
    (h : (t.all fun c => decide (p c)) = true) : ∀ c ∈ t, p c := by
  simpa using h

/-- Bounds in order inside the text cut out the stretch between them. -/
theorem slice_natCast (t : Text) (i j : Nat) (hi : i ≤ t.length) (hj : j ≤ t.length) :
    slice t i j = (t.take j).drop i := by
  simp only [slice, boundary]
  rw [if_neg (by omega), if_neg (by omega)]
  simp [Nat.min_eq_left hi, Nat.min_eq_left hj]

end Text

end DiagLayout
