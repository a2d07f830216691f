import DiagLayout.Overlay
import Mathlib.Data.List.Basic
import Mathlib.Data.List.Pairwise
import Mathlib.Tactic.Common

/-!
# Overlays, piece by piece

The pieces of an overlay are listed offset by offset: the line breaks there, then the placeholder of
the span that starts there, then the character of the text unless it is hidden (`piecesAt`). When
the instructions and the placeholders are laid out properly (`Layable`),

* `overlay_eq_pieces`: the overlay shows the pieces one after the other;
* `restored_pieces`: without the breaks, and with the hidden texts put back, the pieces are the
  text;
* `breaks_pieces`, `folds_pieces`: each instruction and each placeholder is one of the pieces, once
  and in order.
-/

namespace DiagLayout

/-! ### Going along the positions -/

/-- What `f` gives at the positions from `i` up to, and without, `j`, one after the other. -/
def along {α : Type} (f : Nat → List α) (i j : Nat) : List α :=
  (List.range' i (j - i)).flatMap f

section Along

variable {α : Type} {f g : Nat → List α} {i j k : Nat}

theorem along_append (hij : i ≤ j) (hjk : j ≤ k) : along f i k = along f i j ++ along f j k := by
  unfold along
  rw [← List.flatMap_append]
  have hlen : k - i = (j - i) + (k - j) := by omega
  have hmid : j = i + (j - i) := by omega
  rw [hlen, ← List.range'_append_1, ← hmid]

theorem along_one (f : Nat → List α) (i : Nat) : along f i (i + 1) = f i := by
  simp [along]

theorem along_succ (h : i < k) : along f i k = f i ++ along f (i + 1) k := by
  rw [along_append (Nat.le_succ i) h, along_one]

theorem along_congr (h : ∀ p, i ≤ p → p < j → f p = g p) : along f i j = along g i j := by
  refine List.flatMap_congr fun p hp => ?_
  obtain ⟨h1, h2⟩ := List.mem_range'_1.mp hp
  exact h p h1 (by omega)

theorem along_eq_nil (h : ∀ p, i ≤ p → p < j → f p = []) : along f i j = [] := by
  refine List.flatMap_eq_nil_iff.mpr fun p hp => ?_
  obtain ⟨h1, h2⟩ := List.mem_range'_1.mp hp
  exact h p h1 (by omega)

theorem along_getElem (t : List α) (i j : Nat) :
    along (fun p => t[p]?.toList) i j = (t.take j).drop i := by
  rw [List.drop_take]
  unfold along
  generalize j - i = n
  induction n generalizing i with
  | zero => simp
  | succ n ih =>
    rw [List.range'_succ, List.flatMap_cons, ih]
    rcases Nat.lt_or_ge i t.length with h | h
    · rw [List.drop_eq_getElem_cons h, List.take_succ_cons, List.getElem?_eq_getElem h]
      rfl
    · rw [List.drop_of_length_le h, List.drop_of_length_le (Nat.le_succ_of_le h),
        List.getElem?_eq_none h, List.take_nil, List.take_nil]
      rfl

end Along

/-! ### Pieces -/

/-- A piece of an overlay. -/
inductive Piece where
  /-- A character of the text. -/
  | kept (c : Char)
  /-- The line break of an instruction. -/
  | lineBreak (i : Instruction)
  /-- A placeholder, in place of its span. -/
  | folded (p : Placeholder)
  deriving DecidableEq, Repr

namespace Piece

/-- What is seen of a piece. -/
def shown : Piece → Text
  | kept c => [c]
  | lineBreak i => '\n' :: List.replicate i.indent.toNat ' '
  | folded p => p.text

/-- What a piece stands for in the text `t`: a line break for nothing, a placeholder for the hidden
text. -/
def restored (t : Text) : Piece → Text
  | kept c => [c]
  | lineBreak _ => []
  | folded p => p.span.slice t

/-- The instruction of a line break. -/
def break? : Piece → Option Instruction
  | lineBreak i => some i
  | _ => none

/-- The placeholder of a folded span. -/
def folded? : Piece → Option Placeholder
  | folded p => some p
  | _ => none

end Piece

/-- The offset is hidden by one of the spans. -/
def isHidden (hidden : List Placeholder) (o : Nat) : Bool := hidden.any fun p => p.span.contains o

/-- The character at a position, unless it is hidden. -/
def keptAt (t : Text) (hidden : List Placeholder) (o : Nat) : Text :=
  if isHidden hidden o then [] else t[o]?.toList

/-- **The pieces at an offset**: line breaks, then the placeholder, then the character. -/
def piecesAt (t : Text) (instructions : List Instruction) (hidden : List Placeholder) (o : Nat) :
    List Piece :=
  (instructions.filter fun i => i.offset == (o : Int)).map .lineBreak ++
    (hidden.filter fun p => p.span.start == (o : Int)).map .folded ++
    (keptAt t hidden o).map .kept

/-- **The pieces of an overlay**, offset by offset up to the end of the text. -/
def pieces (t : Text) (instructions : List Instruction) (hidden : List Placeholder) : List Piece :=
  (List.range (t.length + 1)).flatMap (piecesAt t instructions hidden)

/-- **Instructions and placeholders that can be laid over a text of `n` characters**: the offsets
increase, the spans are apart and not empty, and no instruction lies inside a span. -/
structure Layable (n : Nat) (instructions : List Instruction) (hidden : List Placeholder) :
    Prop where
  increasing : instructions.Pairwise fun i i' => i.offset < i'.offset
  bounds : ∀ i ∈ instructions, 0 ≤ i.offset ∧ i.offset ≤ n
  apart : hidden.Pairwise fun p p' => p.span.stop < p'.span.start
  inside : ∀ p ∈ hidden, 0 ≤ p.span.start ∧ p.span.start < p.span.stop ∧ p.span.stop ≤ n
  clear : ∀ i ∈ instructions, ∀ p ∈ hidden, i.offset ≤ p.span.start ∨ p.span.stop ≤ i.offset

section Pieces

variable {t : Text} {instructions : List Instruction} {hidden : List Placeholder}

/-- A view of the pieces that keeps characters keeps the characters at a position. -/
theorem flatMap_kept {view : Piece → Text} (hview : ∀ c, view (.kept c) = [c]) (u : Text) :
    (u.map Piece.kept).flatMap view = u := by
  rw [List.flatMap_map, List.flatMap_congr fun c _ => hview c]
  exact List.flatMap_singleton' u

theorem pieces_eq_along :
    pieces t instructions hidden = along (piecesAt t instructions hidden) 0 (t.length + 1) := by
  rw [pieces, along, List.range_eq_range', Nat.sub_zero]

theorem keptAt_shown {o : Nat} (h : ∀ p ∈ hidden, o < p.span.start ∨ p.span.stop ≤ o) :
    keptAt t hidden o = t[o]?.toList := by
  have hno : isHidden hidden o = false := by
    refine List.any_eq_false.mpr fun p hp => ?_
    have := h p hp
    simp only [Span.contains, Bool.and_eq_true, decide_eq_true_eq]
    omega
  rw [keptAt, hno]
  rfl

theorem keptAt_hidden {o : Nat} {p : Placeholder} (hp : p ∈ hidden) (h1 : p.span.start ≤ o)
    (h2 : o < p.span.stop) : keptAt t hidden o = [] := by
  have hyes : isHidden hidden o = true :=
    List.any_eq_true.mpr ⟨p, hp, by simp [Span.contains, h1, h2]⟩
  rw [keptAt, hyes]
  rfl

/-! ### The placeholder at an offset -/

/-- Two different members of a list are related one way or the other. -/
theorem rel_or_rel_of_pairwise {α : Type} {r : α → α → Prop} {l : List α} (h : l.Pairwise r)
    {a b : α} (ha : a ∈ l) (hb : b ∈ l) (hne : a ≠ b) : r a b ∨ r b a :=
  have : Std.Symm fun a b => r a b ∨ r b a := ⟨fun _ _ => Or.symm⟩
  (h.imp (S := fun a b => r a b ∨ r b a) Or.inl).forall ha hb hne

theorem Layable.apart_of_ne {n : Nat} (h : Layable n instructions hidden) {p p' : Placeholder}
    (hp : p ∈ hidden) (hp' : p' ∈ hidden) (hne : p ≠ p') :
    p.span.stop < p'.span.start ∨ p'.span.stop < p.span.start :=
  rel_or_rel_of_pairwise h.apart hp hp' hne

/-- Spans that are apart start at different offsets. -/
theorem Layable.eq_of_start {n : Nat} (h : Layable n instructions hidden) {p p' : Placeholder}
    (hp : p ∈ hidden) (hp' : p' ∈ hidden) (hs : p.span.start = p'.span.start) : p = p' := by
  by_contra hne
  have hcon := h.apart_of_ne hp hp' hne
  have h1 := h.inside p hp
  have h2 := h.inside p' hp'
  omega

theorem Layable.filter_start {n : Nat} (h : Layable n instructions hidden) (o : Int) :
    (hidden.filter fun p => p.span.start == o) = (placeholderAt hidden o).toList := by
  unfold placeholderAt
  have hpw := h.apart.filter fun p => p.span.start == o
  have hmem : ∀ p ∈ hidden.filter (fun p => p.span.start == o), p ∈ hidden ∧ p.span.start = o :=
    fun p hp => by simpa using hp
  generalize hidden.filter (fun p => p.span.start == o) = ps at hpw hmem
  rcases ps with _ | ⟨p, _ | ⟨p', ps⟩⟩
  · rfl
  · rfl
  · have h1 := (List.pairwise_cons.mp hpw).1 p' List.mem_cons_self
    have h2 := hmem p List.mem_cons_self
    have h3 := hmem p' (List.mem_cons_of_mem _ List.mem_cons_self)
    have h4 := h.inside p h2.1
    omega

theorem placeholderAt_eq_some {o : Int} {p : Placeholder} (h : placeholderAt hidden o = some p) :
    p ∈ hidden ∧ p.span.start = o := by
  have hmem := List.mem_of_getLast? h
  rw [List.mem_filter, beq_iff_eq] at hmem
  exact hmem

theorem placeholderAt_eq_none {o : Int} (h : placeholderAt hidden o = none) :
    ∀ p ∈ hidden, p.span.start ≠ o := by
  simpa [placeholderAt] using h

end Pieces

/-! ### The offsets of an overlay -/

theorem mem_insertOffset {o q : Int} {os : List Int} : q ∈ insertOffset o os ↔ q = o ∨ q ∈ os := by
  induction os with
  | nil => simp [insertOffset]
  | cons p os ih =>
    rw [insertOffset]
    split_ifs with h1 h2
    · simp
    · simp [h2]
    · rw [List.mem_cons, ih, List.mem_cons]
      tauto

theorem pairwise_insertOffset {o : Int} {os : List Int} (h : os.Pairwise (· < ·)) :
    (insertOffset o os).Pairwise (· < ·) := by
  induction os with
  | nil => exact List.pairwise_singleton _ _
  | cons p os ih =>
    obtain ⟨hp, hos⟩ := List.pairwise_cons.mp h
    rw [insertOffset]
    split_ifs with h1 h2
    · refine List.pairwise_cons.mpr ⟨fun q hq => ?_, h⟩
      rcases List.mem_cons.mp hq with rfl | hq
      · exact h1
      · exact Int.lt_trans h1 (hp q hq)
    · exact h
    · refine List.pairwise_cons.mpr ⟨fun q hq => ?_, ih hos⟩
      rcases mem_insertOffset.mp hq with rfl | hq
      · omega
      · exact hp q hq

theorem mem_overlayOffsets {instructions : List Instruction} {hidden : List Placeholder} {o : Int} :
    o ∈ overlayOffsets instructions hidden ↔
      (∃ i ∈ instructions, i.offset = o) ∨ ∃ p ∈ hidden, p.span.start = o := by
  have hfold : ∀ os : List Int, o ∈ os.foldr insertOffset [] ↔ o ∈ os := fun os => by
    induction os with
    | nil => rfl
    | cons p os ih => rw [List.foldr_cons, mem_insertOffset, ih, List.mem_cons]
  rw [overlayOffsets, hfold, List.mem_append, List.mem_map, List.mem_map]

theorem pairwise_overlayOffsets (instructions : List Instruction) (hidden : List Placeholder) :
    (overlayOffsets instructions hidden).Pairwise (· < ·) := by
  unfold overlayOffsets
  generalize instructions.map (·.offset) ++ hidden.map (·.span.start) = os
  induction os with
  | nil => exact List.Pairwise.nil
  | cons p os ih => exact pairwise_insertOffset ih

/-! ### The overlay -/

theorem Text.sliceFrom_natCast (t : Text) (i : Nat) (hi : i ≤ t.length) :
    t.sliceFrom i = t.drop i := by
  rw [Text.sliceFrom, Text.boundary, if_neg (by omega), Int.toNat_natCast, Nat.min_eq_left hi]

/-- What is seen at a position when the offsets `os` are still to come. -/
def shownAt (t : Text) (instructions : List Instruction) (hidden : List Placeholder)
    (os : List Int) (o : Nat) : Text :=
  (if (o : Int) ∈ os then
    breaksAt instructions o ++ (placeholderAt hidden o).toList.flatMap (·.text) else []) ++
    keptAt t hidden o

/-- **The state of an overlay in progress**: the text is copied up to `pos`, and `os` are the
offsets to come. -/
structure Pending (n : Nat) (hidden : List Placeholder) (pos : Nat) (os : List Int) : Prop where
  le : pos ≤ n
  increasing : os.Pairwise (· < ·)
  bounds : ∀ o ∈ os, pos ≤ o ∧ o ≤ n
  clear : ∀ o ∈ os, ∀ p ∈ hidden, o ≤ p.span.start ∨ p.span.stop ≤ o
  coming : ∀ p ∈ hidden, p.span.start ∈ os ∨ p.span.stop ≤ pos

section Overlay

variable {t : Text} {n : Nat} {instructions : List Instruction} {hidden : List Placeholder}
  {pos o : Nat} {os : List Int}

theorem shownAt_of_notMem (h : (o : Int) ∉ os) :
    shownAt t instructions hidden os o = keptAt t hidden o := by
  rw [shownAt, if_neg h, List.nil_append]

theorem shownAt_cons_of_lt {q : Int} (h : q < o) :
    shownAt t instructions hidden (q :: os) o = shownAt t instructions hidden os o := by
  have hmem : (o : Int) ∈ q :: os ↔ (o : Int) ∈ os := by
    rw [List.mem_cons, or_iff_right (by omega)]
  simp only [shownAt, hmem]

theorem along_shownAt_cons {q : Int} {i j : Nat} (h : q < i) :
    along (shownAt t instructions hidden (q :: os)) i j =
      along (shownAt t instructions hidden os) i j :=
  along_congr fun p hp _ => shownAt_cons_of_lt (by omega)

/-- Up to the next offset the text is copied as it is. -/
theorem Pending.along_plain (h : Pending n hidden pos os) {j : Nat} (hj : ∀ o ∈ os, j ≤ o) :
    along (shownAt t instructions hidden os) pos j = (t.take j).drop pos := by
  rw [← along_getElem]
  refine along_congr fun p hp1 hp2 => ?_
  rw [shownAt_of_notMem fun hmem => by have := hj _ hmem; omega]
  refine keptAt_shown fun q hq => ?_
  rcases h.coming q hq with hq | hq
  · have := hj _ hq
    omega
  · omega

/-- The next offset is passed, and no span starts there. -/
theorem Pending.pass (h : Pending n hidden pos ((o : Int) :: os))
    (hnone : placeholderAt hidden o = none) : Pending n hidden o os := by
  obtain ⟨hlt, hos⟩ := List.pairwise_cons.mp h.increasing
  have ho := h.bounds o List.mem_cons_self
  refine ⟨by omega, hos, fun q hq => ?_, fun q hq => h.clear q (List.mem_cons_of_mem _ hq),
    fun p hp => ?_⟩
  · have := hlt q hq
    have := h.bounds q (List.mem_cons_of_mem _ hq)
    omega
  · rcases h.coming p hp with hmem | hstop
    · exact Or.inl ((List.mem_cons.mp hmem).resolve_left (placeholderAt_eq_none hnone p hp))
    · exact Or.inr (by omega)

/-- The character at the offset is still to come, only the breaks are done. -/
theorem Pending.along_pass (h : Pending n hidden pos ((o : Int) :: os))
    (hnone : placeholderAt hidden o = none) :
    along (shownAt t instructions hidden (o :: os)) o (n + 1) =
      breaksAt instructions o ++ along (shownAt t instructions hidden os) o (n + 1) := by
  have ho := h.bounds o List.mem_cons_self
  have hnot : (o : Int) ∉ os := fun hmem => by
    have := (List.pairwise_cons.mp h.increasing).1 _ hmem
    omega
  have hat : shownAt t instructions hidden (o :: os) o =
      breaksAt instructions o ++ shownAt t instructions hidden os o := by
    rw [shownAt_of_notMem hnot, shownAt, if_pos List.mem_cons_self, hnone]
    simp
  rw [along_succ (by omega), along_succ (f := shownAt t instructions hidden os) (by omega), hat,
    along_shownAt_cons (by omega), List.append_assoc]

/-- The next offset is passed, and the span that starts there. -/
theorem Pending.passSpan (hl : Layable n instructions hidden)
    (h : Pending n hidden pos ((o : Int) :: os)) {p : Placeholder} {stop : Nat}
    (hp : placeholderAt hidden o = some p) (hstop : p.span.stop = stop) :
    Pending n hidden stop os := by
  obtain ⟨hlt, hos⟩ := List.pairwise_cons.mp h.increasing
  have ho := h.bounds o List.mem_cons_self
  obtain ⟨hmem, hstart⟩ := placeholderAt_eq_some hp
  have hin := hl.inside p hmem
  refine ⟨by omega, hos, fun q hq => ?_, fun q hq => h.clear q (List.mem_cons_of_mem _ hq),
    fun p' hp' => ?_⟩
  · have := hlt q hq
    have := h.bounds q (List.mem_cons_of_mem _ hq)
    have := h.clear q (List.mem_cons_of_mem _ hq) p hmem
    omega
  · rcases h.coming p' hp' with hmem' | hstop'
    · rcases List.mem_cons.mp hmem' with heq | hmem'
      · rw [hl.eq_of_start hp' hmem (by omega)]
        exact Or.inr (by omega)
      · exact Or.inl hmem'
    · exact Or.inr (by omega)

/-- Behind its start a span is hidden, and nothing else lies in it. -/
theorem Pending.along_passSpan (hl : Layable n instructions hidden)
    (h : Pending n hidden pos ((o : Int) :: os)) {p : Placeholder} {stop : Nat}
    (hp : placeholderAt hidden o = some p) (hstop : p.span.stop = stop) :
    along (shownAt t instructions hidden (o :: os)) o (n + 1) =
      breaksAt instructions o ++
        (p.text ++ along (shownAt t instructions hidden os) stop (n + 1)) := by
  obtain ⟨hmem, hstart⟩ := placeholderAt_eq_some hp
  have hin := hl.inside p hmem
  have hat : shownAt t instructions hidden (o :: os) o = breaksAt instructions o ++ p.text := by
    rw [shownAt, if_pos List.mem_cons_self, hp, keptAt_hidden hmem (by omega) (by omega)]
    simp
  have hnil : along (shownAt t instructions hidden os) (o + 1) stop = [] := by
    refine along_eq_nil fun p' hp1 hp2 => ?_
    rw [shownAt_of_notMem fun hmem' => by
      have := (h.passSpan hl hp hstop).bounds _ hmem'
      omega]
    exact keptAt_hidden hmem (by omega) (by omega)
  rw [along_succ (by omega), hat, along_shownAt_cons (by omega),
    along_append (j := stop) (by omega) (by omega), hnil, List.nil_append, List.append_assoc]

/-- **The overlay from a position on** shows, position by position, what is still to come. -/
theorem overlayFrom_eq (hl : Layable t.length instructions hidden) :
    ∀ {os : List Int} {pos : Nat}, Pending t.length hidden pos os →
      overlayFrom t instructions hidden pos os =
        along (shownAt t instructions hidden os) pos (t.length + 1) := by
  intro os
  induction os with
  | nil =>
    intro pos h
    rw [overlayFrom, h.along_plain (by simp), List.take_of_length_le (Nat.le_succ _)]
    exact Text.sliceFrom_natCast t pos h.le
  | cons q os ih =>
    intro pos h
    have hq := h.bounds q List.mem_cons_self
    obtain ⟨o, rfl⟩ : ∃ o : Nat, q = o := ⟨q.toNat, by omega⟩
    have hplain : along (shownAt t instructions hidden (o :: os)) pos o = t.slice pos o := by
      rw [Text.slice_natCast t pos o h.le (by omega)]
      refine h.along_plain fun q hq => ?_
      rcases List.mem_cons.mp hq with rfl | hq
      · exact Int.le_refl _
      · exact Int.le_of_lt ((List.pairwise_cons.mp h.increasing).1 q hq)
    rw [overlayFrom, if_neg (by omega), along_append (j := o) (by omega) (by omega), hplain,
      List.append_assoc]
    congr 1
    cases hp : placeholderAt hidden o with
    | none => rw [h.along_pass hp, ih (h.pass hp)]
    | some p =>
      have hin := hl.inside p (placeholderAt_eq_some hp).1
      obtain ⟨stop, hstop⟩ : ∃ stop : Nat, p.span.stop = stop := ⟨p.span.stop.toNat, by omega⟩
      rw [h.along_passSpan hl hp hstop, ← ih (h.passSpan hl hp hstop), ← hstop]

theorem Layable.pending (hl : Layable n instructions hidden) :
    Pending n hidden 0 (overlayOffsets instructions hidden) := by
  refine ⟨Nat.zero_le n, pairwise_overlayOffsets _ _, fun o ho => ?_, fun o ho p hp => ?_,
    fun p hp => Or.inl (mem_overlayOffsets.mpr (Or.inr ⟨p, hp, rfl⟩))⟩
  · rcases mem_overlayOffsets.mp ho with ⟨i, hi, rfl⟩ | ⟨p, hp, rfl⟩
    · exact hl.bounds i hi
    · have := hl.inside p hp
      omega
  · rcases mem_overlayOffsets.mp ho with ⟨i, hi, rfl⟩ | ⟨p', hp', rfl⟩
    · exact hl.clear i hi p hp
    · have hin := hl.inside p' hp'
      by_cases heq : p' = p
      · exact Or.inl (Int.le_of_eq (by rw [heq]))
      · have := hl.apart_of_ne hp' hp heq
        omega

/-- What is to come at a position in the beginning are the pieces there. -/
theorem Layable.shownAt_eq (hl : Layable n instructions hidden) (o : Nat) :
    shownAt t instructions hidden (overlayOffsets instructions hidden) o =
      (piecesAt t instructions hidden o).flatMap Piece.shown := by
  rw [piecesAt, List.flatMap_append, List.flatMap_append, flatMap_kept fun _ => rfl,
    List.flatMap_map, List.flatMap_map, hl.filter_start, shownAt]
  congr 1
  split_ifs with hmem
  · rfl
  · have hbreaks : instructions.filter (fun i => i.offset == (o : Int)) = [] := by
      refine List.filter_eq_nil_iff.mpr fun i hi heq => hmem ?_
      exact mem_overlayOffsets.mpr (Or.inl ⟨i, hi, by simpa using heq⟩)
    have hspans : placeholderAt hidden o = none := by
      refine Option.eq_none_iff_forall_not_mem.mpr fun p hp => hmem ?_
      exact mem_overlayOffsets.mpr (Or.inr ⟨p, placeholderAt_eq_some hp⟩)
    rw [hbreaks, hspans]
    rfl

/-- **The overlay shows its pieces**, one after the other. -/
theorem Layable.overlay_eq_pieces (hl : Layable t.length instructions hidden) :
    overlay t instructions hidden = (pieces t instructions hidden).flatMap Piece.shown := by
  have h := overlayFrom_eq hl hl.pending
  rw [overlay, show (0 : Int) = ((0 : Nat) : Int) from rfl, h, pieces_eq_along, along, along,
    List.flatMap_assoc]
  exact List.flatMap_congr fun o _ => hl.shownAt_eq o

/-- Without instructions the overlay goes up to the last character: no span starts behind it. -/
theorem Layable.overlay_eq_along (hl : Layable t.length [] hidden) : overlay t [] hidden =
    along (fun o => (piecesAt t [] hidden o).flatMap Piece.shown) 0 t.length := by
  have hend : piecesAt t [] hidden t.length = [] := by
    have hno : (hidden.filter fun p => p.span.start == (t.length : Int)) = [] := by
      refine List.filter_eq_nil_iff.mpr fun p hp => ?_
      have := hl.inside p hp
      simp only [beq_iff_eq]
      omega
    have hkept : keptAt t hidden t.length = [] := by
      unfold keptAt
      rw [List.getElem?_eq_none (Nat.le_refl _)]
      split_ifs <;> rfl
    simp [piecesAt, hno, hkept]
  rw [hl.overlay_eq_pieces, pieces_eq_along, along_append (Nat.zero_le _) (Nat.le_succ t.length),
    along_one, hend, List.append_nil]
  exact List.flatMap_assoc

end Overlay

/-! ### Back to the text -/

section Restored

/-- What the pieces at a position stand for. -/
def restoredAt (t : Text) (instructions : List Instruction) (hidden : List Placeholder)
    (o : Nat) : Text :=
  (piecesAt t instructions hidden o).flatMap (Piece.restored t)

variable {t : Text} {n : Nat} {instructions : List Instruction} {hidden : List Placeholder}

theorem Layable.restoredAt_eq (hl : Layable n instructions hidden) (o : Nat) :
    restoredAt t instructions hidden o =
      (placeholderAt hidden o).toList.flatMap (·.span.slice t) ++ keptAt t hidden o := by
  have hbreaks : ∀ is : List Instruction,
      (is.map Piece.lineBreak).flatMap (Piece.restored t) = [] := fun is => by
    simp [List.flatMap_map, Piece.restored]
  rw [restoredAt, piecesAt, List.flatMap_append, List.flatMap_append, flatMap_kept fun _ => rfl,
    hbreaks, List.flatMap_map, hl.filter_start, List.nil_append]
  rfl

/-- Where no span starts and none goes on, the character is kept. -/
theorem Layable.restoredAt_kept (hl : Layable n instructions hidden) {pos : Nat}
    (hout : ∀ p ∈ hidden, pos ≤ p.span.start ∨ p.span.stop ≤ pos)
    (hnone : placeholderAt hidden pos = none) :
    restoredAt t instructions hidden pos = t[pos]?.toList := by
  rw [hl.restoredAt_eq, hnone]
  refine keptAt_shown fun p hp => ?_
  have := hout p hp
  have := placeholderAt_eq_none hnone p hp
  omega

/-- Along a span, only its placeholder stands for something: for the text of the span. -/
theorem Layable.along_restoredAt_span (hl : Layable t.length instructions hidden) {pos stop : Nat}
    {p : Placeholder} (hp : placeholderAt hidden pos = some p) (hstop : p.span.stop = stop) :
    along (restoredAt t instructions hidden) pos stop = (t.take stop).drop pos := by
  obtain ⟨hmem, hstart⟩ := placeholderAt_eq_some hp
  have hin := hl.inside p hmem
  have hat : restoredAt t instructions hidden pos = (t.take stop).drop pos := by
    rw [hl.restoredAt_eq, hp, keptAt_hidden hmem (by omega) (by omega),
      ← Text.slice_natCast t pos stop (by omega) (by omega), ← hstart, ← hstop]
    simp [Span.slice]
  have hnil : along (restoredAt t instructions hidden) (pos + 1) stop = [] := by
    refine along_eq_nil fun o ho1 ho2 => ?_
    have hnone : placeholderAt hidden o = none := by
      refine Option.eq_none_iff_forall_not_mem.mpr fun p' hp' => ?_
      obtain ⟨hmem', hstart'⟩ := placeholderAt_eq_some hp'
      have hin' := hl.inside p' hmem'
      have := hl.apart_of_ne hmem hmem' fun heq => by rw [heq] at hstart; omega
      omega
    rw [hl.restoredAt_eq, hnone, keptAt_hidden hmem (by omega) (by omega)]
    rfl
  rw [along_succ (by omega), hat, hnil, List.append_nil]

/-- From a position on that lies inside no span, the pieces stand for the rest of the text. -/
theorem Layable.along_restoredAt (hl : Layable t.length instructions hidden) (k : Nat) :
    ∀ pos : Nat, t.length + 1 - pos = k → pos ≤ t.length + 1 →
      (∀ p ∈ hidden, pos ≤ p.span.start ∨ p.span.stop ≤ pos) →
      along (restoredAt t instructions hidden) pos (t.length + 1) = t.drop pos := by
  -- on what is left of the text; a step goes over one character or over a whole span
  induction k using Nat.strongRecOn with
  | ind k ih =>
    intro pos hk hpos hout
    rcases Nat.lt_or_ge pos (t.length + 1) with hlt | hge
    · cases hp : placeholderAt hidden pos with
      | none =>
        rw [along_succ hlt, hl.restoredAt_kept hout hp, ih (k - 1) (by omega) (pos + 1) (by omega)
          (by omega) fun p hp' => ?_]
        · exact (List.drop_eq_getElem?_toList_append).symm
        · have := hout p hp'
          have := placeholderAt_eq_none hp p hp'
          omega
      | some p =>
        obtain ⟨hmem, hstart⟩ := placeholderAt_eq_some hp
        have hin := hl.inside p hmem
        obtain ⟨stop, hstop⟩ : ∃ stop : Nat, p.span.stop = stop := ⟨p.span.stop.toNat, by omega⟩
        rw [along_append (j := stop) (by omega) (by omega), hl.along_restoredAt_span hp hstop,
          ih (t.length + 1 - stop) (by omega) stop rfl (by omega) fun p' hp' => ?_]
        · have hsplit := List.take_append_drop stop t
          calc (t.take stop).drop pos ++ t.drop stop
              = (t.take stop ++ t.drop stop).drop pos := by
                rw [List.drop_append_of_le_length (by rw [List.length_take]; omega)]
            _ = t.drop pos := by rw [hsplit]
        · by_cases heq : p' = p
          · rw [heq]
            omega
          · have := hl.apart_of_ne hp' hmem heq
            have := hl.inside p' hp'
            omega
    · rw [List.drop_of_length_le (by omega)]
      exact along_eq_nil fun o ho1 ho2 => by omega

/-- **Without the breaks and with the hidden texts put back the pieces are the text.** -/
theorem Layable.restored_pieces (hl : Layable t.length instructions hidden) :
    (pieces t instructions hidden).flatMap (Piece.restored t) = t := by
  have h := hl.along_restoredAt (t.length + 1) 0 rfl (Nat.zero_le _) fun p hp =>
    Or.inl (hl.inside p hp).1
  rw [pieces_eq_along, along, List.flatMap_assoc]
  exact h

/-! ### Nothing is lost or doubled -/

/-- Increasing keys that are looked up one after the other give the list back. -/
theorem along_filter_key {α : Type} (key : α → Int) {l : List α} {j : Nat} :
    ∀ {i : Nat}, l.Pairwise (fun a b => key a < key b) → (∀ a ∈ l, i ≤ key a ∧ key a < j) →
      along (fun o => l.filter fun a => key a == (o : Int)) i j = l := by
  induction l with
  | nil => exact fun _ _ => along_eq_nil fun _ _ _ => rfl
  | cons a l ih =>
    intro i hpw hb
    obtain ⟨ha, hl⟩ := List.pairwise_cons.mp hpw
    have hai := hb a List.mem_cons_self
    obtain ⟨m, hm⟩ : ∃ m : Nat, key a = m := ⟨(key a).toNat, by omega⟩
    have hnone : ∀ o : Nat, o ≤ m → l.filter (fun b => key b == (o : Int)) = [] := fun o ho =>
      List.filter_eq_nil_iff.mpr fun b hb' heq => by
        have := ha b hb'
        rw [beq_iff_eq] at heq
        omega
    have hskip : ∀ o : Nat, o ≠ m → (a :: l).filter (fun b => key b == (o : Int)) =
        l.filter fun b => key b == (o : Int) := fun o ho =>
      List.filter_cons_of_neg (by rw [beq_iff_eq]; omega)
    have hbefore : along (fun o => (a :: l).filter fun b => key b == (o : Int)) i m = [] :=
      along_eq_nil fun o _ ho => by rw [hskip o (by omega), hnone o (by omega)]
    have hat : (a :: l).filter (fun b => key b == (m : Int)) = [a] := by
      rw [List.filter_cons_of_pos (by rw [beq_iff_eq]; exact hm), hnone m (Nat.le_refl m)]
    have hbehind : along (fun o => (a :: l).filter fun b => key b == (o : Int)) (m + 1) j = l := by
      rw [along_congr fun o ho _ => hskip o (by omega)]
      refine ih hl fun b hb' => ?_
      have := ha b hb'
      have := hb b (List.mem_cons_of_mem _ hb')
      omega
    rw [along_append (j := m) (by omega) (by omega), hbefore, along_succ (by omega), hat, hbehind]
    rfl

/-- **Each instruction is one line break**, in order. -/
theorem Layable.breaks_pieces (hl : Layable t.length instructions hidden) :
    (pieces t instructions hidden).filterMap Piece.break? = instructions := by
  have hat : ∀ o : Nat, (piecesAt t instructions hidden o).filterMap Piece.break? =
      instructions.filter fun i => i.offset == (o : Int) := fun o => by
    simp [piecesAt, List.filterMap_map, Function.comp_def, Piece.break?]
  rw [pieces_eq_along, along, List.filterMap_flatMap, List.flatMap_congr fun o _ => hat o]
  refine along_filter_key Instruction.offset hl.increasing fun i hi => ?_
  have := hl.bounds i hi
  omega

/-- **Each placeholder is one folded piece**, in order. -/
theorem Layable.folds_pieces (hl : Layable t.length instructions hidden) :
    (pieces t instructions hidden).filterMap Piece.folded? = hidden := by
  have hat : ∀ o : Nat, (piecesAt t instructions hidden o).filterMap Piece.folded? =
      hidden.filter fun p => p.span.start == (o : Int) := fun o => by
    simp [piecesAt, List.filterMap_map, Function.comp_def, Piece.folded?]
  have hinc : hidden.Pairwise fun p p' => p.span.start < p'.span.start := by
    refine hl.apart.imp_of_mem fun {p p'} hp _ h => ?_
    have := hl.inside p hp
    omega
  rw [pieces_eq_along, along, List.filterMap_flatMap, List.flatMap_congr fun o _ => hat o]
  refine along_filter_key (fun p : Placeholder => p.span.start) hinc fun p hp => ?_
  have := hl.inside p hp
  omega

end Restored

end DiagLayout
