import DiagLayout.Proofs.Lines
import DiagLayout.Proofs.ShownText

/-!
# Columns of rendered text

The pen writes the pieces of an overlay one after the other. A character moves it one column on, a
placeholder by its length, and a line break puts it at the indent of the new line. `penColumn` is
the column that it comes to.

* `penColumn_quiet`, `penText_quiet`: where no line is broken the pen writes the glyphs that are
  shown, and moves on by them;
* `penColumn_eq_endColumn`: the column of the pen is the column behind the text written so far;
* `Layable.overlay_eq_penText`: that text is a part of the overlay.
-/

namespace DiagLayout

/-- The column behind a piece that is written from column `col` on. -/
def Piece.past (col : Int) : Piece → Int
  | kept _ => col + 1
  | lineBreak i => i.indent
  | folded p => col + p.text.length

/-- **The column of the pen** before the position `x`, when the pieces of the overlay are written
from the position `start` and the column `col` on. -/
def penColumn (t : Text) (is : List Instruction) (hidden : List Placeholder) (col : Int)
    (start x : Nat) : Int :=
  (along (piecesAt t is hidden) start x).foldl Piece.past col

/-- What the pen writes from the position `start` up to `x`. -/
def penText (t : Text) (is : List Instruction) (hidden : List Placeholder) (start x : Nat) : Text :=
  (along (piecesAt t is hidden) start x).flatMap Piece.shown

/-- The column behind the line breaks at a position. -/
def breakColumn (is : List Instruction) (x : Nat) (col : Int) : Int :=
  ((is.filter fun i => i.offset == (x : Int)).map Piece.lineBreak).foldl Piece.past col

section Breaks

variable {is : List Instruction} {x : Nat}

theorem breakColumn_of_forall_ne (h : ∀ i ∈ is, i.offset ≠ x) (col : Int) :
    breakColumn is x col = col := by
  have hnone : (is.filter fun i => i.offset == (x : Int)) = [] := by
    refine List.filter_eq_nil_iff.mpr fun i hi => ?_
    simpa using h i hi
  rw [breakColumn, hnone]
  rfl

theorem exists_breakColumn_eq {i : Instruction} (hi : i ∈ is) (hx : i.offset = x) (col : Int) :
    ∃ i' ∈ is, i'.offset = x ∧ breakColumn is x col = i'.indent := by
  have hmem : i ∈ is.filter fun i => i.offset == (x : Int) := by simp [hi, hx]
  unfold breakColumn
  rcases List.eq_nil_or_concat (is.filter fun i => i.offset == (x : Int)) with
    hnil | ⟨front, i', hl⟩
  · rw [hnil] at hmem
    cases hmem
  · rw [List.concat_eq_append] at hl
    have hi' : i' ∈ is.filter fun i => i.offset == (x : Int) := by rw [hl]; simp
    obtain ⟨h1, h2⟩ := List.mem_filter.mp hi'
    refine ⟨i', h1, beq_iff_eq.mp h2, ?_⟩
    rw [hl, List.map_append, List.foldl_append]
    rfl

/-- Where a frame may break the line, and no other does, the pen resumes in the frame. -/
theorem breakColumn_eq_resume {frame : Frame}
    (h : ∀ i : Instruction, i.offset = x → (i ∈ is ↔ i ∈ frame.breakAt x)) (col : Int) :
    breakColumn is x col = frame.resume col := by
  unfold Frame.resume
  by_cases hb : frame.broken = true
  · have hmem := (h ⟨x, frame.indent⟩ rfl).mpr (Frame.mem_breakAt.mpr ⟨hb, rfl⟩)
    obtain ⟨i, hi, hx, hcol⟩ := exists_breakColumn_eq hmem rfl col
    rw [hcol, if_pos hb, (Frame.mem_breakAt.mp ((h i hx).mp hi)).2]
  · rw [if_neg hb]
    refine breakColumn_of_forall_ne (fun i hi hx => hb ?_) col
    exact (Frame.mem_breakAt.mp ((h i hx).mp hi)).1

end Breaks

section Pen

variable {src : Source} {is : List Instruction} {hidden : List Placeholder} {i j k : Nat}
  (col : Int)

theorem penColumn_append (hij : i ≤ j) (hjk : j ≤ k) :
    penColumn src.text is hidden col i k =
      penColumn src.text is hidden (penColumn src.text is hidden col i j) j k := by
  unfold penColumn
  rw [along_append hij hjk, List.foldl_append]

theorem foldl_past_kept (u : Text) : (u.map Piece.kept).foldl Piece.past col = col + u.length := by
  induction u generalizing col with
  | nil => simp
  | cons c u ih =>
    rw [List.map_cons, List.foldl_cons, ih, Piece.past, List.length_cons]
    omega

theorem foldl_past_folded (ps : List Placeholder) :
    (ps.map Piece.folded).foldl Piece.past col = col + (ps.flatMap Placeholder.glyphs).length := by
  induction ps generalizing col with
  | nil => simp
  | cons p ps ih =>
    rw [List.map_cons, List.foldl_cons, ih, Piece.past, List.flatMap_cons, List.length_append,
      Placeholder.length_glyphs]
    omega

/-- At one position: the line breaks, and then the glyphs that are shown. -/
theorem foldl_past_piecesAt (o : Nat) : (piecesAt src.text is hidden o).foldl Piece.past col =
    breakColumn is o col + (src.foldedAt hidden o).length := by
  have hkept : (keptAt src.text hidden o).length =
      (if isHidden hidden o then [] else src[o]?.toList).length := by
    unfold keptAt Source.text Glyph.text
    rw [List.getElem?_map]
    split_ifs
    · rfl
    · cases src[o]? <;> rfl
  unfold piecesAt Source.foldedAt
  rw [List.foldl_append, List.foldl_append, foldl_past_kept, foldl_past_folded, List.length_append,
    hkept]
  unfold breakColumn
  omega

/-- **Where no line is broken the pen moves on by what is shown.** -/
theorem penColumn_quiet (hij : i < j) (hq : ∀ ins ∈ is, ins.offset ≤ i ∨ (j : Int) ≤ ins.offset) :
    penColumn src.text is hidden col i j =
      breakColumn is i col + (along (src.foldedAt hidden) i j).length := by
  obtain ⟨m, rfl⟩ : ∃ m, j = i + 1 + m := ⟨j - (i + 1), by omega⟩
  clear hij
  induction m with
  | zero =>
    rw [penColumn, Nat.add_zero, along_one, along_one]
    exact foldl_past_piecesAt col i
  | succ m ih =>
    have hlast : ∀ ins ∈ is, ins.offset ≠ (i + 1 + m : Nat) := by
      intro ins hins
      have := hq ins hins
      omega
    rw [penColumn_append col (show i ≤ i + 1 + m by omega) (by omega),
      along_append (show i ≤ i + 1 + m by omega) (show i + 1 + m ≤ i + 1 + (m + 1) by omega),
      ih fun ins hins => by have := hq ins hins; omega]
    unfold penColumn
    rw [← Nat.add_assoc, along_one, along_one, foldl_past_piecesAt,
      breakColumn_of_forall_ne hlast, List.length_append]
    omega

end Pen

/-! ### The column behind a text -/

namespace Text

/-- The column behind the text. -/
def endColumn (t : Text) : Nat := t.column t.length

theorem endColumn_append {u v : Text} (hv : '\n' ∉ v) :
    (u ++ v).endColumn = u.endColumn + v.length := by
  have hplain : ∀ c ∈ v.reverse, (c != '\n') = true := by
    intro c hc
    have : c ≠ '\n' := fun h => hv (h ▸ List.mem_reverse.mp hc)
    simpa using this
  unfold endColumn column
  rw [List.take_length, List.take_length, List.reverse_append,
    List.takeWhile_append_of_pos hplain, List.length_append, List.length_reverse]
  omega

theorem endColumn_append_le (u v : Text) : (u ++ v).endColumn ≤ u.endColumn + v.length := by
  unfold endColumn column
  rw [List.take_length, List.take_length, List.reverse_append, List.takeWhile_append]
  split_ifs
  · rw [List.length_append, List.length_reverse]
    omega
  · have hle := (List.takeWhile_sublist (l := v.reverse) (· != '\n')).length_le
    rw [List.length_reverse] at hle
    omega

theorem endColumn_line {u v : Text} (hv : '\n' ∉ v) :
    (u ++ '\n' :: v).endColumn = v.length := by
  have hsplit : u ++ '\n' :: v = (u ++ ['\n']) ++ v := by simp
  have hstart : (u ++ ['\n']).endColumn = 0 := by
    simp [endColumn, column]
  rw [hsplit, endColumn_append hv, hstart, Nat.zero_add]

theorem endColumn_spaces (n : Nat) : endColumn (List.replicate n ' ') = n := by
  have hspaces : '\n' ∉ List.replicate n ' ' := by simp [List.mem_replicate]
  rw [← List.nil_append (List.replicate _ _), endColumn_append hspaces, List.length_replicate]
  simp [endColumn, column]

end Text

/-- The piece has no line feed but that of a line break. -/
def Piece.Plain : Piece → Prop
  | kept c => c ≠ '\n'
  | lineBreak i => 0 ≤ i.indent
  | folded p => '\n' ∉ p.text

/-- **The column of the pen is the column behind what it has written.** -/
theorem endColumn_pieces {ps : List Piece} (h : ∀ p ∈ ps, p.Plain) (u : Text) :
    ((u ++ ps.flatMap Piece.shown).endColumn : Int) = ps.foldl Piece.past u.endColumn := by
  induction ps generalizing u with
  | nil => simp
  | cons p ps ih =>
    have hp := h p List.mem_cons_self
    rw [List.flatMap_cons, ← List.append_assoc, ih fun p' hp' => h p' (List.mem_cons_of_mem _ hp'),
      List.foldl_cons]
    congr 1
    cases p with
    | kept c =>
      unfold Piece.shown Piece.past
      rw [Text.endColumn_append (by simpa using Ne.symm hp)]
      simp
    | lineBreak i =>
      have hindent : 0 ≤ i.indent := hp
      unfold Piece.shown Piece.past
      rw [Text.endColumn_line (by simp [List.mem_replicate]), List.length_replicate]
      exact Int.toNat_of_nonneg hindent
    | folded p =>
      have hp : '\n' ∉ p.text := hp
      simp only [Piece.shown, Piece.past]
      rw [Text.endColumn_append hp]
      omega

/-- A line feed in a piece puts the column behind it further back. -/
theorem endColumn_pieces_le {ps : List Piece}
    (h : ∀ i : Instruction, .lineBreak i ∈ ps → 0 ≤ i.indent) (u : Text) : ∀ {col : Int},
      (u.endColumn : Int) ≤ col →
      ((u ++ ps.flatMap Piece.shown).endColumn : Int) ≤ ps.foldl Piece.past col := by
  induction ps generalizing u with
  | nil => intro col hcol; simpa using hcol
  | cons p ps ih =>
    intro col hcol
    rw [List.flatMap_cons, ← List.append_assoc, List.foldl_cons]
    refine ih (fun i hi => h i (List.mem_cons_of_mem _ hi)) _ ?_
    have hle := Text.endColumn_append_le u p.shown
    cases p with
    | kept c =>
      simp only [Piece.shown, Piece.past, List.length_singleton] at hle ⊢
      omega
    | lineBreak i =>
      have hindent := h i List.mem_cons_self
      unfold Piece.shown Piece.past
      rw [Text.endColumn_line (by simp [List.mem_replicate]), List.length_replicate]
      exact Int.le_of_eq (Int.toNat_of_nonneg hindent)
    | folded p =>
      simp only [Piece.shown, Piece.past] at hle ⊢
      omega

section Written

variable {src : Source} {is : List Instruction} {hidden : List Placeholder}

theorem penText_append {i j k : Nat} (hij : i ≤ j) (hjk : j ≤ k) :
    penText src.text is hidden i k =
      penText src.text is hidden i j ++ penText src.text is hidden j k := by
  unfold penText
  rw [along_append hij hjk, List.flatMap_append]

/-- At one position the pen writes the line breaks, and then what is shown. -/
theorem penText_succ (o : Nat) : penText src.text is hidden o (o + 1) =
    ((is.filter fun i => i.offset == (o : Int)).map Piece.lineBreak).flatMap Piece.shown ++
      Glyph.text (src.foldedAt hidden o) := by
  unfold penText
  rw [along_one, text_foldedAt]
  simp only [piecesAt, List.filter_nil, List.map_nil, List.nil_append, List.append_assoc,
    List.flatMap_append]

/-- Where no line is broken the pen writes what is shown. -/
theorem penText_quiet {i j : Nat} (hq : ∀ ins ∈ is, ins.offset < i ∨ (j : Int) ≤ ins.offset) :
    penText src.text is hidden i j = Glyph.text (along (src.foldedAt hidden) i j) := by
  have hat : ∀ o ∈ List.range' i (j - i), (piecesAt src.text is hidden o).flatMap Piece.shown =
      Glyph.text (src.foldedAt hidden o) := by
    intro o ho
    obtain ⟨h1, h2⟩ := List.mem_range'_1.mp ho
    have hnone : (is.filter fun i => i.offset == (o : Int)) = [] := by
      refine List.filter_eq_nil_iff.mpr fun ins hins => ?_
      have := hq ins hins
      rw [beq_iff_eq]
      omega
    rw [text_foldedAt, piecesAt, piecesAt, hnone, List.filter_nil]
  unfold penText along
  rw [List.flatMap_assoc, List.flatMap_congr hat, Glyph.text, List.map_flatMap]
  rfl

/-- The pieces of a stretch without line feeds are plain. -/
theorem plain_of_mem_along {e : Extent} (hline : '\n' ∉ Glyph.text (src.window e))
    (his : ∀ i ∈ is, 0 ≤ i.indent) (hhidden : ∀ p ∈ hidden, '\n' ∉ p.text) {x : Nat}
    (hx : x ≤ e.stop) : ∀ p ∈ along (piecesAt src.text is hidden) e.start x, p.Plain := by
  intro p hp
  obtain ⟨o, ho, hp⟩ := List.mem_flatMap.mp hp
  obtain ⟨h1, h2⟩ := List.mem_range'_1.mp ho
  unfold piecesAt at hp
  rcases List.mem_append.mp hp with hp | hp
  · rcases List.mem_append.mp hp with hp | hp
    · obtain ⟨i, hi, rfl⟩ := List.mem_map.mp hp
      exact his i (List.mem_of_mem_filter hi)
    · obtain ⟨ph, hph, rfl⟩ := List.mem_map.mp hp
      exact hhidden ph (List.mem_of_mem_filter hph)
  · obtain ⟨c, hc, rfl⟩ := List.mem_map.mp hp
    have hat : src.text[o]? = some c := by
      unfold keptAt at hc
      split_ifs at hc
      · cases hc
      · exact Option.mem_toList.mp hc
    rw [Source.text, Glyph.text, List.getElem?_map] at hat
    obtain ⟨g, hg, rfl⟩ := Option.map_eq_some_iff.mp hat
    rintro heq
    exact hline (heq ▸ List.mem_map_of_mem (Source.mem_window hg h1 (by omega)))

/-- **The column of the pen is the column behind what it has written**, when the first line is
indented. -/
theorem penColumn_eq_endColumn {indent : Int} (hindent : 0 ≤ indent) {start x : Nat}
    (hplain : ∀ p ∈ along (piecesAt src.text is hidden) start x, p.Plain) :
    penColumn src.text is hidden indent start x =
      Text.endColumn (List.replicate indent.toNat ' ' ++ penText src.text is hidden start x) := by
  rw [penText, endColumn_pieces hplain, Text.endColumn_spaces, Int.toNat_of_nonneg hindent]
  rfl

/-- The text written so far does not reach further than the pen. -/
theorem endColumn_le_penColumn {indent : Int} (hindent : 0 ≤ indent)
    (his : ∀ i ∈ is, 0 ≤ i.indent) (start x : Nat) :
    (Text.endColumn (List.replicate indent.toNat ' ' ++ penText src.text is hidden start x) : Int) ≤
      penColumn src.text is hidden indent start x := by
  refine endColumn_pieces_le (fun i hi => ?_) _ ?_
  · obtain ⟨o, -, hmem⟩ := List.mem_flatMap.mp hi
    simp only [piecesAt, List.mem_append, List.mem_map, List.mem_filter] at hmem
    rcases hmem with (⟨i', ⟨hi', -⟩, heq⟩ | ⟨p, -, heq⟩) | ⟨c, -, heq⟩
    · cases heq
      exact his _ hi'
    · cases heq
    · cases heq
  · rw [Text.endColumn_spaces]
    omega

/-- **What the pen writes is a part of the overlay**, when nothing is laid over the text before. -/
theorem Layable.overlay_eq_penText (hl : Layable src.text.length is hidden) {start x : Nat}
    (his : ∀ i ∈ is, (start : Int) ≤ i.offset)
    (hhidden : ∀ p ∈ hidden, (start : Int) ≤ p.span.start)
    (hs : start ≤ x) (hx : x ≤ src.text.length) :
    overlay src.text is hidden = src.text.take start ++ penText src.text is hidden start x ++
      penText src.text is hidden x (src.text.length + 1) := by
  have hbefore : (along (piecesAt src.text is hidden) 0 start).flatMap Piece.shown =
      src.text.take start := by
    have hplain : ∀ o, 0 ≤ o → o < start →
        (piecesAt src.text is hidden o).flatMap Piece.shown = src.text[o]?.toList := by
      intro o _ ho
      have h1 : (is.filter fun i => i.offset == (o : Int)) = [] :=
        List.filter_eq_nil_iff.mpr fun i hi => by
          have := his i hi
          rw [beq_iff_eq]
          omega
      have h2 : (hidden.filter fun p => p.span.start == (o : Int)) = [] :=
        List.filter_eq_nil_iff.mpr fun p hp => by
          have := hhidden p hp
          rw [beq_iff_eq]
          omega
      rw [piecesAt, h1, h2, keptAt_shown fun p hp => by have := hhidden p hp; omega]
      exact flatMap_kept (fun _ => rfl) _
    calc (along (piecesAt src.text is hidden) 0 start).flatMap Piece.shown
        = along (fun o => (piecesAt src.text is hidden o).flatMap Piece.shown) 0 start :=
          List.flatMap_assoc
      _ = along (fun o => src.text[o]?.toList) 0 start := along_congr hplain
      _ = src.text.take start := by rw [along_getElem, List.drop_zero]
  rw [hl.overlay_eq_pieces, pieces_eq_along, along_append (Nat.zero_le start) (by omega),
    along_append hs (show x ≤ src.text.length + 1 by omega), List.flatMap_append,
    List.flatMap_append, hbefore, List.append_assoc]
  rfl

end Written

end DiagLayout
