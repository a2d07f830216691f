import DiagLayout.Proofs.PenColumn

/-!
# The invariant of a layout

A layout keeps only the columns left on the line. That they are those left of the rendered text is
an invariant of the whole layout, `Filled`. A stretch has it (`Laid.filled`), and it passes from a
forest to its parts: behind a token (`Filled.item`), into a group that is shown (`Filled.interior`)
and behind a group (`Filled.behind`).

A group is broken iff its frame is (`Filled.brokenAt_opener`), and its frame is broken iff what is
shown of it exceeds the columns that the pen has left (`Filled.broken_iff`).
-/

namespace DiagLayout

/-- The length of what is shown of the positions from `i` up to `j`. -/
def Source.visibleLength (src : Source) (hidden : List Placeholder) (i j : Nat) : Int :=
  (along (src.foldedAt hidden) i j).length

/-- A line is broken at the offset. -/
def BrokenAt (is : List Instruction) (x : Int) : Prop := ∃ i ∈ is, i.offset = x

instance (is : List Instruction) (x : Int) : Decidable (BrokenAt is x) :=
  inferInstanceAs (Decidable (∃ i ∈ is, i.offset = x))

/-- **The invariant of a layout**: `is` are the lines broken in the whole stretch, and among them
those broken in the forest from `i` to `j`. The pen comes to the forest in column `col`. -/
structure Filled (src : Source) (hidden : List Placeholder) (is : List Instruction) (page : Page)
    (start : Nat) (indent : Int) (i : Nat) (f : Forest Token) (j : Nat) (top : Frame) (col : Int) :
    Prop where
  laid : Laid src i f j
  folds : f.Folds hidden
  settled : ∀ ins : Instruction, (i : Int) < ins.offset → ins.offset ≤ j →
    (ins ∈ is ↔ ins ∈ f.breaks page top col)
  start_le : start ≤ i
  stop_le : j ≤ src.length
  pen : breakColumn is i (penColumn src.text is hidden indent start i) = col

section Invariant

variable {src : Source} {hidden : List Placeholder} {is : List Instruction} {page : Page}
  {start : Nat} {indent : Int} {i j : Nat} {top : Frame} {col : Int}

/-- A stretch is laid out from its first position on. -/
theorem Laid.filled {f : Forest Token} (h : Laid src i f j) (hj : j ≤ src.length)
    (hfolds : f.Folds hidden) (page : Page) (top : Frame) (col : Int) :
    Filled src hidden (f.breaks page top col) page i col i f j top col := by
  refine ⟨h, hfolds, fun _ _ _ => Iff.rfl, Nat.le_refl i, hj, ?_⟩
  have hnone : ∀ ins ∈ f.breaks page top col, ins.offset ≠ i := by
    intro ins hins
    obtain ⟨x, -, hx, hlt, -⟩ := h.mem_breaks hins
    omega
  rw [breakColumn_of_forall_ne hnone, penColumn, along_eq_nil fun p h1 h2 => by omega]
  rfl

theorem startingAt_page (hatoms : page.atoms = hidden.map Placeholder.atom) (x : Nat) :
    Atom.startingAt page.atoms x = (placeholderAt hidden x).map Placeholder.atom := by
  rw [hatoms, startingAt_atoms]

theorem startingAt_page_eq_none (hatoms : page.atoms = hidden.map Placeholder.atom) {x : Nat} :
    Atom.startingAt page.atoms x = none ↔ placeholderAt hidden x = none := by
  rw [startingAt_page hatoms, Option.map_eq_none_iff]

/-- The pen writes a token that is shown. -/
theorem penColumn_token (hlay : Layable src.length is hidden) (indent : Int) {t : Token}
    (ht : t.At src i)
    (hap : Atom.Apart (hidden.map Placeholder.atom) t.start t.stop) (hstart : start ≤ i)
    (hq : ∀ ins ∈ is, ins.offset ≤ i ∨ (t.stop : Int) ≤ ins.offset) :
    penColumn src.text is hidden indent start t.stop =
      breakColumn is i (penColumn src.text is hidden indent start i) + t.glyphs.length := by
  have hs := ht.start_eq
  have hlt := ht.formed.lt_stop
  rw [penColumn_append indent hstart (show i ≤ t.stop by omega), penColumn_quiet _ (by omega) hq,
    hlay.along_foldedAt_token ht hap]

namespace Filled

variable (hlay : Layable src.length is hidden) (hatoms : page.atoms = hidden.map Placeholder.atom)

section Item

variable {t : Token} {rest : Forest Token}
  (h : Filled src hidden is page start indent i (.item t rest) j top col)
include h

/-- Up to the end of the token the lines are broken only there, and only by its frame. -/
theorem settled_token (ins : Instruction) (hi : (i : Int) < ins.offset)
    (hj : ins.offset ≤ t.stop) : ins ∈ is ↔ t.kind = .separator ∧ ins ∈ top.breakAt t.stop := by
  cases h.laid with
  | item ht hb hr =>
    have hle := hr.le
    rw [h.settled ins hi (by omega), Forest.mem_breaks_item, or_iff_left]
    intro hrest
    obtain ⟨x, -, hx, hlt, -⟩ := hr.mem_breaks hrest
    omega

include hlay

theorem item : Filled src hidden is page start indent t.stop rest j top (t.past top col) := by
  have htoken := h.settled_token
  obtain ⟨hap, hfolds⟩ := h.folds
  cases h.laid with
  | item ht hb hr =>
    obtain ⟨hs, hlt, hle⟩ := Laid.item_bounds ht hr
    have hquiet : ∀ ins ∈ is, ins.offset ≤ i ∨ (t.stop : Int) ≤ ins.offset := by
      intro ins hins
      by_contra hcon
      have hbreak := ((htoken ins (by omega) (by omega)).mp hins).2
      rw [(Frame.mem_breakAt.mp hbreak).2] at hcon
      simp at hcon
    have hpen := penColumn_token hlay indent ht hap h.start_le hquiet
    rw [h.pen] at hpen
    refine ⟨hr, hfolds, ?_, by have := h.start_le; omega, h.stop_le, ?_⟩
    · intro ins hi hj
      rw [h.settled ins (by omega) hj, Forest.mem_breaks_item, or_iff_right]
      rintro ⟨-, hbreak⟩
      rw [(Frame.mem_breakAt.mp hbreak).2] at hi
      simp at hi
    · rw [hpen]
      unfold Token.past
      split_ifs with hk
      · refine breakColumn_eq_resume (fun ins hx => ?_) _
        rw [htoken ins (by omega) (by omega), and_iff_right hk]
      · refine breakColumn_of_forall_ne (fun ins hins hx => ?_) _
        exact hk ((htoken ins (by omega) (by omega)).mp hins).1

end Item

section Group

variable {o c : Token} {inner rest : Forest Token}
  (h : Filled src hidden is page start indent i (.group o inner c rest) j top col)
include h

/-- Up to the end of the opener the lines are broken only there, and only by the frame of the
group. -/
theorem settled_opener (ins : Instruction) (hi : (i : Int) < ins.offset)
    (hj : ins.offset ≤ o.stop) : ins ∈ is ↔ ins ∈ (page.frame top col o c).breakAt o.stop := by
  cases h.laid with
  | group ho hob hin hc hcb hr =>
    obtain ⟨hos, hostop, hile, hlt, hrle⟩ := Laid.group_bounds ho hob hin hc hr
    rw [h.settled ins hi (by omega), Forest.mem_breaks_group, or_iff_left]
    rintro (⟨-, hmem⟩ | hmem)
    · obtain ⟨x, -, hx, hx', -⟩ := hin.mem_breaks hmem
      omega
    · obtain ⟨x, -, hx, hx', -⟩ := hr.mem_breaks hmem
      omega

theorem settled_interior (ins : Instruction) (hi : (o.stop : Int) < ins.offset)
    (hj : ins.offset ≤ c.start) : ins ∈ is ↔ Atom.startingAt page.atoms o.stop = none ∧
      ins ∈ inner.breaks page (page.frame top col o c) (page.inside top col o c) := by
  cases h.laid with
  | group ho hob hin hc hcb hr =>
    obtain ⟨hos, hostop, hile, hlt, hrle⟩ := Laid.group_bounds ho hob hin hc hr
    rw [h.settled ins (by omega) (by omega), Forest.mem_breaks_group, or_iff_right, or_iff_left]
    · intro hmem
      obtain ⟨x, -, hx, hx', -⟩ := hr.mem_breaks hmem
      omega
    · intro hmem
      rw [(Frame.mem_breakAt.mp hmem).2] at hi
      simp at hi

theorem settled_behind (ins : Instruction) (hi : (c.start : Int) < ins.offset)
    (hj : ins.offset ≤ j) : ins ∈ is ↔ ins ∈ rest.breaks page top
      (Forest.pastInterior page top col o inner c + c.glyphs.length) := by
  cases h.laid with
  | group ho hob hin hc hcb hr =>
    obtain ⟨hos, hostop, hile, hlt, hrle⟩ := Laid.group_bounds ho hob hin hc hr
    rw [h.settled ins (by omega) hj, Forest.mem_breaks_group, or_iff_right, or_iff_right]
    · rintro ⟨-, hmem⟩
      obtain ⟨x, -, hx, -, hx'⟩ := hin.mem_breaks hmem
      omega
    · intro hmem
      rw [(Frame.mem_breakAt.mp hmem).2] at hi
      simp only at hi
      omega

/-- **A group is broken iff its frame is.** -/
theorem brokenAt_opener : BrokenAt is o.stop ↔ (page.frame top col o c).broken = true := by
  have hopener := h.settled_opener
  cases h.laid with
  | group ho hob hin hc hcb hr =>
    obtain ⟨hos, hostop, -, -, -⟩ := Laid.group_bounds ho hob hin hc hr
    constructor
    · rintro ⟨ins, hins, hx⟩
      exact (Frame.mem_breakAt.mp ((hopener ins (by omega) (by omega)).mp hins)).1
    · intro hb
      refine ⟨⟨o.stop, (page.frame top col o c).indent⟩, ?_, rfl⟩
      exact (hopener _ (by simp only; omega) (Int.le_refl _)).mpr (Frame.mem_breakAt.mpr ⟨hb, rfl⟩)

/-- The interior of a group that a placeholder stands for is hidden. -/
theorem isHidden_interior {p : Placeholder} (hat : placeholderAt hidden o.stop = some p) {x : Nat}
    (ho : o.stop ≤ x) (hc : x < c.start) : isHidden hidden x = true := by
  obtain ⟨-, -, hspan, -⟩ := h.folds
  rw [hat] at hspan
  refine isHidden_iff.mpr ⟨p, (placeholderAt_eq_some hat).1, ?_, ?_⟩
  · rw [hspan]
    exact Int.ofNat_le.mpr ho
  · rw [hspan]
    exact Int.ofNat_lt.mpr hc

include hlay

/-- Behind the opener the pen has written the opener, and no break yet. -/
theorem pen_opener :
    penColumn src.text is hidden indent start o.stop = col + o.glyphs.length := by
  have hopener := h.settled_opener
  obtain ⟨hapo, -⟩ := h.folds
  cases h.laid with
  | group ho hob hin hc hcb hr =>
    have hquiet : ∀ ins ∈ is, ins.offset ≤ i ∨ (o.stop : Int) ≤ ins.offset := by
      intro ins hins
      by_contra hcon
      have hbreak := (hopener ins (by omega) (by omega)).mp hins
      rw [(Frame.mem_breakAt.mp hbreak).2] at hcon
      simp at hcon
    rw [penColumn_token hlay indent ho hapo h.start_le hquiet, h.pen]

theorem pen_inside : breakColumn is o.stop (penColumn src.text is hidden indent start o.stop) =
    page.inside top col o c := by
  have hopener := h.settled_opener
  rw [h.pen_opener hlay]
  unfold Page.inside
  cases h.laid with
  | group ho hob hin hc hcb hr =>
    obtain ⟨hos, hostop, -, -, -⟩ := Laid.group_bounds ho hob hin hc hr
    exact breakColumn_eq_resume (fun ins hx => hopener ins (by omega) (by omega)) _

/-- Behind a group the pen goes on from what is behind its interior. -/
theorem behind_of (hpen : breakColumn is c.start
      (penColumn src.text is hidden indent start c.start) =
        Forest.pastInterior page top col o inner c) :
    Filled src hidden is page start indent c.stop rest j top
      (Forest.pastInterior page top col o inner c + c.glyphs.length) := by
  have hbehind := h.settled_behind
  obtain ⟨-, hapc, -, hfolds⟩ := h.folds
  have h1 := h.start_le
  cases h.laid with
  | group ho hob hin hc hcb hr =>
    obtain ⟨hos, hostop, hile, hlt, hrle⟩ := Laid.group_bounds ho hob hin hc hr
    -- what is broken behind the closer bracket is broken behind the closer
    have hnone : ∀ ins ∈ is, ins.offset ≤ c.start ∨ (c.stop : Int) < ins.offset := by
      intro ins hins
      by_contra hcon
      obtain ⟨x, -, hx, hx', -⟩ := hr.mem_breaks ((hbehind ins (by omega) (by omega)).mp hins)
      omega
    refine ⟨hr, hfolds, fun ins hi hj => hbehind ins (by omega) hj, by omega, h.stop_le, ?_⟩
    rw [breakColumn_of_forall_ne fun ins hins hx => by have := hnone ins hins; omega,
      penColumn_token hlay indent hc hapc (by omega)
        fun ins hins => by have := hnone ins hins; omega, hpen]

include hatoms

theorem interior (hnone : placeholderAt hidden o.stop = none) :
    Filled src hidden is page start indent o.stop inner c.start (page.frame top col o c)
      (page.inside top col o c) := by
  have hinterior := h.settled_interior
  have hpen := h.pen_inside hlay
  obtain ⟨-, -, hfolds, -⟩ := h.folds
  rw [hnone] at hfolds
  have h1 := h.start_le
  have h2 := h.stop_le
  cases h.laid with
  | group ho hob hin hc hcb hr =>
    obtain ⟨hos, hostop, hile, hlt, hrle⟩ := Laid.group_bounds ho hob hin hc hr
    refine ⟨hin, hfolds, fun ins hi hj => ?_, by omega, by omega, hpen⟩
    rw [hinterior ins hi hj, and_iff_right ((startingAt_page_eq_none hatoms).mpr hnone)]

/-- Behind a hidden interior the pen has written its placeholder. -/
theorem pen_hidden {p : Placeholder} (hat : placeholderAt hidden o.stop = some p) :
    breakColumn is c.start (penColumn src.text is hidden indent start c.start) =
      page.inside top col o c + p.text.length := by
  have hinterior := h.settled_interior
  have hpen := h.pen_inside hlay
  obtain ⟨hp, hs⟩ := placeholderAt_eq_some hat
  obtain ⟨-, -, hspan, -⟩ := h.folds
  rw [hat] at hspan
  have hlt := hlay.span_lt p hp
  rw [hspan] at hlt
  simp only at hlt
  -- no line is broken where the interior is hidden
  have hnone : ∀ ins ∈ is, ins.offset ≤ o.stop ∨ (c.start : Int) < ins.offset := by
    intro ins hins
    by_contra hcon
    have := ((hinterior ins (by omega) (by omega)).mp hins).1
    rw [startingAt_page_eq_none hatoms, hat] at this
    cases this
  have hshown : along (src.foldedAt hidden) o.stop c.start = p.glyphs :=
    hlay.along_foldedAt_span src hp hs (by rw [hspan])
  have h1 := h.start_le
  cases h.laid with
  | group ho hob hin hc hcb hr =>
    obtain ⟨hos, hostop, hile, -, -⟩ := Laid.group_bounds ho hob hin hc hr
    rw [breakColumn_of_forall_ne fun ins hins hx => by have := hnone ins hins; omega,
      penColumn_append indent (show start ≤ o.stop by omega) hile,
      penColumn_quiet _ (by omega) fun ins hins => by have := hnone ins hins; omega, hpen, hshown,
      Placeholder.length_glyphs]

/-- Behind an interior the pen stands where the layout takes it to stand, if it does so where the
interior is shown. -/
theorem pen_interior (hshown : placeholderAt hidden o.stop = none →
      breakColumn is c.start (penColumn src.text is hidden indent start c.start) =
        inner.column page (page.frame top col o c) (page.inside top col o c)) :
    breakColumn is c.start (penColumn src.text is hidden indent start c.start) =
      Forest.pastInterior page top col o inner c := by
  unfold Forest.pastInterior Page.behind
  rw [startingAt_page hatoms]
  cases hat : placeholderAt hidden o.stop with
  | some p => exact h.pen_hidden hlay hatoms hat
  | none => exact hshown hat

end Group

include hlay hatoms

/-- **Behind a forest the pen stands in the column of the forest.** -/
theorem pen_stop {f : Forest Token} (h : Filled src hidden is page start indent i f j top col) :
    breakColumn is j (penColumn src.text is hidden indent start j) = f.column page top col := by
  induction f generalizing i j top col with
  | nil =>
    obtain rfl := h.laid.eq_of_nil
    exact h.pen
  | item t rest ih => exact ih (h.item hlay)
  | group o inner c rest ihi ihr =>
    exact ihr (h.behind_of hlay (h.pen_interior hlay hatoms fun hnone =>
      ihi (h.interior hlay hatoms hnone)))

theorem behind {o c : Token} {inner rest : Forest Token}
    (h : Filled src hidden is page start indent i (.group o inner c rest) j top col) :
    Filled src hidden is page start indent c.stop rest j top
      (Forest.pastInterior page top col o inner c + c.glyphs.length) :=
  h.behind_of hlay (h.pen_interior hlay hatoms fun hnone =>
    (h.interior hlay hatoms hnone).pen_stop hlay hatoms)

/-- The length that a group is entered with is that of what is shown of it. -/
theorem columns_group {o c : Token} {inner rest : Forest Token}
    (h : Filled src hidden is page start indent i (.group o inner c rest) j top col) :
    Atom.columns page.atoms ⟨o.stop, c.start + 1⟩ =
      src.visibleLength hidden o.stop (c.start + 1) := by
  have hstop := h.stop_le
  obtain ⟨hapo, hapc, -, -⟩ := h.folds
  cases h.laid with
  | group ho hob hin hc hcb hr =>
    obtain ⟨hos, hostop, hile, hlt, hrle⟩ := Laid.group_bounds ho hob hin hc hr
    have hopen : Free hidden o.stop := free_of_apart hapo (by omega) (Nat.le_refl _)
    have hclose : Free hidden (c.start + 1) := free_of_apart hapc (Nat.le_succ _) hlt
    rw [hatoms, hlay.columns_eq hopen (by omega), Source.visibleLength,
      hlay.length_along_foldedAt src hclose (by omega) hopen (by omega)]

/-- A frame breaks the group iff what is shown of it exceeds the columns left behind its opener. -/
theorem broken_iff {o c : Token} {inner rest : Forest Token}
    (h : Filled src hidden is page start indent i (.group o inner c rest) j top col) :
    (page.frame top col o c).broken = true ↔
      src.visibleLength hidden o.stop (c.start + 1) ≠ 1 ∧
        page.width - penColumn src.text is hidden indent start o.stop <
          src.visibleLength hidden o.stop (c.start + 1) := by
  unfold Page.frame Frame.enter
  rw [h.columns_group hlay hatoms, h.pen_opener hlay]
  split_ifs with hfit
  · simp only [false_iff]
    omega
  · simp only [true_iff]
    omega

end Filled

end Invariant

end DiagLayout
