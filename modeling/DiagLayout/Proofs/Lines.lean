import DiagLayout.Session
import Mathlib.Tactic.Common

/-!
# Lines of a text

* `Text.ofLines`: complete lines, each with its line feed; a text is its complete lines and a rest
  in one way only (`splitLines_spec`, `splitLines_ofLines`).
* `Text.column`, `Text.lineStart`: the place of a position in its line, and where that line starts.
* `Text.map_lineEnds`: the line feeds of a text are the ends of its complete lines.
-/

namespace DiagLayout

namespace Text

/-- Complete lines, each followed by its line feed. -/
def ofLines (lines : List Text) : Text := lines.flatMap (· ++ ['\n'])

@[simp] theorem ofLines_nil : ofLines [] = [] := rfl

@[simp] theorem ofLines_cons (line : Text) (lines : List Text) :
    ofLines (line :: lines) = line ++ '\n' :: ofLines lines := by simp [ofLines]

@[simp] theorem ofLines_append (lines lines' : List Text) :
    ofLines (lines ++ lines') = ofLines lines ++ ofLines lines' := by simp [ofLines]

/-- The text is empty or ends with a line feed, so that a new line starts behind it. -/
def EndsLine (t : Text) : Prop := t = [] ∨ ∃ u : Text, t = u ++ ['\n']

theorem EndsLine.append_line (t line : Text) : EndsLine (t ++ (line ++ ['\n'])) :=
  Or.inr ⟨t ++ line, by simp⟩

theorem endsLine_ofLines (lines : List Text) : EndsLine (ofLines lines) := by
  rcases lines.eq_nil_or_concat with rfl | ⟨lines, line, rfl⟩
  · exact Or.inl rfl
  · rw [List.concat_eq_append, ofLines_append, ofLines_cons, ofLines_nil]
    exact EndsLine.append_line _ line

end Text

/-! ### Splitting -/

theorem splitLines_spec {t : Text} : ∀ {lines : List Text} {rest : Text},
    splitLines t = (lines, rest) → t = Text.ofLines lines ++ rest ∧
      (∀ line ∈ lines, '\n' ∉ line) ∧ '\n' ∉ rest := by
  induction t with
  | nil =>
    intro lines rest h
    cases h
    simp
  | cons c t ih =>
    intro lines rest h
    rw [splitLines] at h
    rcases hs : splitLines t with ⟨ls, r⟩
    obtain ⟨ht, hlines, hrest⟩ := ih hs
    rw [hs] at h
    simp only at h
    split_ifs at h with hc
    · cases h
      subst hc
      refine ⟨by rw [Text.ofLines_cons, ht]; rfl, fun line hmem => ?_, hrest⟩
      rcases List.mem_cons.mp hmem with rfl | hmem
      · exact List.not_mem_nil
      · exact hlines line hmem
    · have hc' : ¬ '\n' = c := fun h => hc h.symm
      cases ls with
      | nil =>
        cases h
        refine ⟨by rw [ht]; rfl, by simp, ?_⟩
        rw [List.mem_cons, not_or]
        exact ⟨hc', hrest⟩
      | cons line ls =>
        cases h
        refine ⟨?_, fun line' hmem => ?_, hrest⟩
        · rw [ht, Text.ofLines_cons, Text.ofLines_cons]; rfl
        · rcases List.mem_cons.mp hmem with rfl | hmem
          · rw [List.mem_cons, not_or]
            exact ⟨hc', hlines line List.mem_cons_self⟩
          · exact hlines line' (List.mem_cons_of_mem _ hmem)

theorem splitLines_line {line : Text} (h : '\n' ∉ line) (t : Text) :
    splitLines (line ++ '\n' :: t) = (line :: (splitLines t).1, (splitLines t).2) := by
  induction line with
  | nil => simp [splitLines]
  | cons c line ih =>
    obtain ⟨hc, hline⟩ := not_or.mp (mt List.mem_cons.mpr h)
    rw [List.cons_append, splitLines, ih hline]
    simp [Ne.symm hc]

theorem splitLines_rest {rest : Text} (h : '\n' ∉ rest) : splitLines rest = ([], rest) := by
  induction rest with
  | nil => rfl
  | cons c rest ih =>
    obtain ⟨hc, hrest⟩ := not_or.mp (mt List.mem_cons.mpr h)
    rw [splitLines, ih hrest]
    simp [Ne.symm hc]

/-- **Lines and rest are determined by the text.** -/
theorem splitLines_ofLines {lines : List Text} {rest : Text} (hl : ∀ line ∈ lines, '\n' ∉ line)
    (hr : '\n' ∉ rest) : splitLines (Text.ofLines lines ++ rest) = (lines, rest) := by
  induction lines with
  | nil => exact splitLines_rest hr
  | cons line lines ih =>
    rw [Text.ofLines_cons, List.append_assoc, List.cons_append,
      splitLines_line (hl line List.mem_cons_self),
      ih fun l hmem => hl l (List.mem_cons_of_mem _ hmem)]

/-! ### Positions -/

namespace Text

/-- The number of characters between the start of the line and the position `i`. -/
def column (t : Text) (i : Nat) : Nat := ((t.take i).reverse.takeWhile (· != '\n')).length

/-- Where the line of the position `i` starts. -/
def lineStart (t : Text) (i : Nat) : Nat := i - t.column i

/-- The line of the position `i`, up to there. -/
def lineTo (t : Text) (i : Nat) : Text := (t.take i).drop (t.lineStart i)

section Place

variable {pre u : Text} (hpre : EndsLine pre) (hu : '\n' ∉ u) (v : Text)
include hpre hu

/-- The column behind `u`, when `u` stands at the start of a line. -/
theorem column_append : column (pre ++ (u ++ v)) (pre.length + u.length) = u.length := by
  have htake : (pre ++ (u ++ v)).take (pre.length + u.length) = pre ++ u := by
    rw [← List.append_assoc, ← List.length_append, List.take_left]
  have hall : ∀ c ∈ u.reverse, (c != '\n') = true := by
    intro c hc
    rw [List.mem_reverse] at hc
    exact bne_iff_ne.mpr fun h => hu (h ▸ hc)
  have hstop : pre.reverse.takeWhile (· != '\n') = [] := by
    rcases hpre with rfl | ⟨w, rfl⟩
    · rfl
    · simp
  rw [column, htake, List.reverse_append, List.takeWhile_append_of_pos hall, hstop]
  simp

theorem lineStart_append : lineStart (pre ++ (u ++ v)) (pre.length + u.length) = pre.length := by
  rw [lineStart, column_append hpre hu, Nat.add_sub_cancel]

theorem lineTo_append : lineTo (pre ++ (u ++ v)) (pre.length + u.length) = u := by
  rw [lineTo, lineStart_append hpre hu, ← List.append_assoc, ← List.length_append, List.take_left,
    List.drop_left]

end Place

/-- The positions of line feeds among the `n` positions from `i` on. -/
def lineEnds (t : Text) (i n : Nat) : List Nat :=
  (List.range' i n).filter fun p => t[p]? == some '\n'

theorem lineEnds_add (t : Text) (i m n : Nat) :
    t.lineEnds i (m + n) = t.lineEnds i m ++ t.lineEnds (i + m) n := by
  rw [lineEnds, lineEnds, lineEnds, ← List.filter_append, List.range'_append_1]

theorem lineEnds_eq_nil (pre : Text) {u : Text} (hu : '\n' ∉ u) (v : Text) :
    lineEnds (pre ++ (u ++ v)) pre.length u.length = [] := by
  refine List.filter_eq_nil_iff.mpr fun p hp => ?_
  obtain ⟨h1, h2⟩ := List.mem_range'_1.mp hp
  rw [List.getElem?_append_right h1, List.getElem?_append_left (by omega), beq_iff_eq]
  exact fun h => hu (List.mem_of_getElem? h)

/-- What `f` gives for each line and the position of its first character, the first line being at
`base`. -/
def mapLines {α : Type} (f : Text → Nat → α) (base : Nat) : List Text → List α
  | [] => []
  | line :: lines => f line base :: mapLines f (base + line.length + 1) lines

theorem mapLines_append {α : Type} (f : Text → Nat → α) (lines lines' : List Text) :
    ∀ base : Nat, mapLines f base (lines ++ lines') =
      mapLines f base lines ++ mapLines f (base + (ofLines lines).length) lines' := by
  induction lines with
  | nil => intro base; rfl
  | cons line lines ih =>
    intro base
    rw [List.cons_append, mapLines, mapLines, ih, List.cons_append]
    congr 3
    rw [ofLines_cons, List.length_append, List.length_cons]
    omega

/-- **The line feeds of a text are the ends of its lines**: going through them is going through the
lines, each once and in order. -/
theorem map_lineEnds {α : Type} (f : Text → Nat → α) {lines : List Text} {rest : Text}
    (hl : ∀ line ∈ lines, '\n' ∉ line) (hr : '\n' ∉ rest) : ∀ {pre : Text}, EndsLine pre →
      (lineEnds (pre ++ (ofLines lines ++ rest)) pre.length (ofLines lines ++ rest).length).map
          (fun p => f (lineTo (pre ++ (ofLines lines ++ rest)) p)
            (lineStart (pre ++ (ofLines lines ++ rest)) p)) =
        mapLines f pre.length lines := by
  induction lines with
  | nil =>
    intro pre _
    have hnil := lineEnds_eq_nil pre hr []
    rw [List.append_nil] at hnil
    rw [ofLines_nil, List.nil_append, hnil]
    rfl
  | cons line lines ih =>
    intro pre hpre
    have hline := hl line List.mem_cons_self
    have hih := ih (fun l hmem => hl l (List.mem_cons_of_mem _ hmem))
      (EndsLine.append_line pre line)
    have htext : pre ++ (ofLines (line :: lines) ++ rest) =
        pre ++ (line ++ '\n' :: (ofLines lines ++ rest)) := by simp
    have htext' : pre ++ (line ++ ['\n']) ++ (ofLines lines ++ rest) =
        pre ++ (line ++ '\n' :: (ofLines lines ++ rest)) := by simp
    have hlen : (ofLines (line :: lines) ++ rest).length =
        line.length + (1 + (ofLines lines ++ rest).length) := by
      simp; omega
    have hpos : pre.length + line.length + 1 = (pre ++ (line ++ ['\n'])).length := by simp; omega
    have hone : lineEnds (pre ++ (line ++ '\n' :: (ofLines lines ++ rest)))
        (pre.length + line.length) 1 = [pre.length + line.length] := by
      simp [lineEnds]
    rw [htext'] at hih
    rw [htext, hlen, lineEnds_add, lineEnds_add, lineEnds_eq_nil pre hline, hone, List.nil_append,
      List.singleton_append, List.map_cons, lineTo_append hpre hline, lineStart_append hpre hline,
      mapLines, hpos, hih]

end Text

end DiagLayout
