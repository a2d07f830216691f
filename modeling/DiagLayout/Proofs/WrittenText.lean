import DiagLayout.Proofs.WholeGroups

/-!
# What a layout writes

Where nothing is hidden, the overlay of a layout can be read off the forest: the text of each token,
and behind it the line that its frame breaks there (`Forest.written`).

* `Laid.overlay_eq_written`: the overlay of a whole text. The breaks of a forest are those of its
  parts, one behind the other, so each part writes its own (`Between.left`, `Between.right`).
* `Laid.written_of_room`: in a frame that is not broken, and with room for all of it, a forest is
  written as it stands.
-/

namespace DiagLayout

/-- The line that a frame breaks. -/
def Frame.breakText (frame : Frame) : Text :=
  if frame.broken then '\n' :: List.replicate frame.indent.toNat ' ' else []

theorem Frame.breakText_of_whole {frame : Frame} (h : frame.broken = false) :
    frame.breakText = [] := by
  simp [breakText, h]

theorem Frame.breakText_of_broken {frame : Frame} {k : Nat} (h : frame.broken = true)
    (hindent : frame.indent = k) : frame.breakText = '\n' :: List.replicate k ' ' := by
  rw [breakText, if_pos h, hindent, Int.toNat_natCast]

/-- **What the layout of a forest writes** in the frame `top` from column `col` on, when nothing is
hidden. -/
def Forest.written (page : Page) : Forest Token → Frame → Int → Text
  | nil, _, _ => []
  | item t rest, top, col =>
    t.text ++ ((if t.kind = .separator then top.breakText else []) ++
      rest.written page top (t.past top col))
  | group o inner c rest, top, col =>
    o.text ++ ((page.frame top col o c).breakText ++
      (inner.written page (page.frame top col o c) (page.inside top col o c) ++ (c.text ++
        rest.written page top (pastInterior page top col o inner c + c.glyphs.length))))

/-! ### The breaks behind a position -/

theorem breaksAt_eq_breakText {is : List Instruction} {frame : Frame} {x : Int}
    (hpw : is.Pairwise fun i i' => i.offset < i'.offset)
    (h : ∀ i : Instruction, i.offset = x → (i ∈ is ↔ frame.broken = true ∧ i = ⟨x, frame.indent⟩)) :
    breaksAt is x = frame.breakText := by
  have hmem : ∀ i ∈ is.filter (fun i => i.offset == x), frame.broken = true ∧
      i = ⟨x, frame.indent⟩ := by
    intro i hi
    obtain ⟨hi, hx⟩ := List.mem_filter.mp hi
    exact (h i (beq_iff_eq.mp hx)).mp hi
  unfold breaksAt Frame.breakText
  by_cases hb : frame.broken = true
  · have hone : is.filter (fun i => i.offset == x) = [⟨x, frame.indent⟩] := by
      have hin : (⟨x, frame.indent⟩ : Instruction) ∈ is.filter fun i => i.offset == x :=
        List.mem_filter.mpr ⟨(h _ rfl).mpr ⟨hb, rfl⟩, by simp⟩
      have hfilter := hpw.filter fun i => i.offset == x
      rcases hl : is.filter (fun i => i.offset == x) with _ | ⟨i, _ | ⟨i', l⟩⟩
      · rw [hl] at hin
        cases hin
      · rw [hl, (hmem i (by simp [hl])).2]
      · -- two breaks would be at different offsets
        rw [hl] at hfilter
        have hlt := (List.pairwise_cons.mp hfilter).1 i' List.mem_cons_self
        rw [(hmem i (by simp [hl])).2, (hmem i' (by simp [hl])).2] at hlt
        exact absurd hlt (Int.lt_irrefl _)
    rw [hone, if_pos hb]
    simp
  · have hnone : is.filter (fun i => i.offset == x) = [] :=
      List.eq_nil_iff_forall_not_mem.mpr fun i hi => hb (hmem i hi).1
    rw [hnone, if_neg hb]
    rfl

/-- Each character with the line breaks behind it. -/
def charThenBreaks (t : Text) (is : List Instruction) (o : Nat) : Text :=
  t[o]?.toList ++ breaksAt is (o + 1 : Nat)

/-- Reading the breaks behind the characters instead of before them. -/
theorem along_turn {α : Type} (f g : Nat → List α) (n : Nat) :
    along (fun o => f o ++ g o) 0 (n + 1) =
      f 0 ++ (along (fun o => g o ++ f (o + 1)) 0 n ++ g n) := by
  induction n with
  | zero => simp [along]
  | succ n ih =>
    rw [along_append (Nat.zero_le (n + 1)) (Nat.le_succ (n + 1)), ih, along_one,
      along_append (Nat.zero_le n) (Nat.le_succ n), along_one]
    simp

section Written

variable {src : Source} {is : List Instruction} {page : Page} {i j : Nat} {f : Forest Token}

/-- Where the only breaks are behind the last character. -/
theorem along_charThenBreaks (hij : i < j)
    (hq : ∀ ins ∈ is, ins.offset ≤ i ∨ (j : Int) ≤ ins.offset) (t : Text) :
    along (charThenBreaks t is) i j = (t.take j).drop i ++ breaksAt is j := by
  obtain ⟨n, rfl⟩ : ∃ n, j = n + 1 := ⟨j - 1, by omega⟩
  have hnone : ∀ o, i ≤ o → o < n → charThenBreaks t is o = t[o]?.toList := by
    intro o h1 h2
    have hbreaks : breaksAt is (o + 1 : Nat) = [] := by
      unfold breaksAt
      rw [List.filter_eq_nil_iff.mpr fun ins hins => by
        have := hq ins hins
        rw [beq_iff_eq]
        omega]
      rfl
    rw [charThenBreaks, hbreaks, List.append_nil]
  rw [along_append (show i ≤ n by omega) (Nat.le_succ n), along_congr hnone, along_one,
    charThenBreaks, ← List.append_assoc, ← along_getElem,
    along_append (show i ≤ n by omega) (Nat.le_succ n), along_one]

/-- The instructions behind `a` and up to `b` are those of the list `p`. -/
def Between (is : List Instruction) (a b : Int) (p : List Instruction) : Prop :=
  ∀ ins : Instruction, a < ins.offset → ins.offset ≤ b → (ins ∈ is ↔ ins ∈ p)

namespace Between

variable {a b c : Int} {p q : List Instruction}

theorem left (h : Between is a c (p ++ q)) (hle : b ≤ c)
    (hbehind : ∀ ins ∈ q, b < ins.offset) : Between is a b p := by
  intro ins h1 h2
  rw [h ins h1 (by omega), List.mem_append]
  constructor
  · rintro (hins | hins)
    · exact hins
    · have := hbehind ins hins
      omega
  · exact Or.inl

theorem right (h : Between is a c (p ++ q)) (hle : a ≤ b)
    (hbefore : ∀ ins ∈ p, ins.offset ≤ b) : Between is b c q := by
  intro ins h1 h2
  rw [h ins (by omega) h2, List.mem_append]
  constructor
  · rintro (hins | hins)
    · have := hbefore ins hins
      omega
    · exact hins
  · exact Or.inr

end Between

theorem Frame.offset_of_mem_breakAt {frame : Frame} {x : Nat} {ins : Instruction}
    (h : ins ∈ frame.breakAt x) : ins.offset = x := by
  rw [(Frame.mem_breakAt.mp h).2]

theorem Token.At.along_charThenBreaks {t : Token} (ht : t.At src i) (frame : Frame)
    (hpw : is.Pairwise fun i i' => i.offset < i'.offset)
    (h : Between is i t.stop (frame.breakAt t.stop)) :
    along (charThenBreaks src.text is) i t.stop = t.text ++ frame.breakText := by
  have hlt : i < t.stop := by
    have := ht.formed.lt_stop
    have := ht.start_eq
    omega
  have htext : (src.text.take t.stop).drop i = t.text := by
    rw [Token.text, ht.reads, Source.text, Glyph.text, Glyph.text, ← List.map_take, ← List.map_drop,
      List.drop_take, Source.window, Token.extent, ht.start_eq]
  rw [DiagLayout.along_charThenBreaks hlt (fun ins hins => ?_), htext]
  · congr 1
    refine breaksAt_eq_breakText hpw fun ins hins => ?_
    rw [h ins (by omega) (by omega), Frame.mem_breakAt]
  · by_contra hcon
    have hbreak := (h ins (by omega) (by omega)).mp hins
    have := Frame.offset_of_mem_breakAt hbreak
    omega

/-- A token behind which no line is broken. -/
theorem Token.At.along_quiet {t : Token} (ht : t.At src i)
    (hpw : is.Pairwise fun i i' => i.offset < i'.offset) (h : Between is i t.stop []) :
    along (charThenBreaks src.text is) i t.stop = t.text := by
  have hquiet := ht.along_charThenBreaks ⟨false, 0⟩ hpw h
  rwa [Frame.breakText_of_whole rfl, List.append_nil] at hquiet

/-- **What is written along a forest**, when the breaks in its place are its own. -/
theorem Laid.along_eq_written (h : Laid src i f j) (hatoms : page.atoms = [])
    (hpw : is.Pairwise fun i i' => i.offset < i'.offset) : ∀ {top : Frame} {col : Int},
      Between is i j (f.breaks page top col) →
      along (charThenBreaks src.text is) i j = f.written page top col := by
  induction h with
  | nil =>
    intro top col _
    simp [along, Forest.written]
  | @item i j t rest ht hb hr ih =>
    intro top col hbreaks
    obtain ⟨-, hlt, hle⟩ := Laid.item_bounds ht hr
    have hrest : ∀ ins ∈ rest.breaks page top (t.past top col), (t.stop : Int) < ins.offset := by
      intro ins hins
      obtain ⟨x, -, hx, hx', -⟩ := hr.mem_breaks hins
      omega
    have htoken : along (charThenBreaks src.text is) i t.stop =
        t.text ++ if t.kind = .separator then top.breakText else [] := by
      have hleft := Between.left hbreaks (Int.ofNat_le.mpr hle) hrest
      by_cases hk : t.kind = .separator
      · rw [if_pos hk] at hleft ⊢
        exact ht.along_charThenBreaks top hpw hleft
      · rw [if_neg hk] at hleft ⊢
        rw [ht.along_quiet hpw hleft, List.append_nil]
    have hright := Between.right hbreaks (b := t.stop) (by omega) fun ins hins => by
      split_ifs at hins
      · exact Int.le_of_eq (Frame.offset_of_mem_breakAt hins)
      · cases hins
    rw [along_append (Nat.le_of_lt hlt) hle, htoken, ih hright, Forest.written, List.append_assoc]
  | @group i j b o c inner rest ho hob hi hc hcb hr ihi ihr =>
    intro top col hbreaks
    obtain ⟨hstart, hostop, hile, hlt, hle⟩ := Laid.group_bounds ho hob hi hc hr
    rw [Forest.breaks, Page.within, hatoms] at hbreaks
    -- the breaks of the four parts, from left to right
    have hinner : ∀ ins ∈ inner.breaks page (page.frame top col o c) (page.inside top col o c),
        (o.stop : Int) < ins.offset ∧ ins.offset ≤ c.start := by
      intro ins hins
      obtain ⟨x, -, hx, hx', hx''⟩ := hi.mem_breaks hins
      omega
    have hrest : ∀ ins ∈ rest.breaks page top
        (Forest.pastInterior page top col o inner c + c.glyphs.length),
        (c.stop : Int) < ins.offset := by
      intro ins hins
      obtain ⟨x, -, hx, hx', -⟩ := hr.mem_breaks hins
      omega
    have hopener := Between.left hbreaks (b := o.stop) (by omega) fun ins hins => by
      rcases List.mem_append.mp hins with hins | hins
      · exact (hinner ins hins).1
      · have := hrest ins hins
        omega
    have hbehind := Between.right hbreaks (b := o.stop) (by omega) fun ins hins =>
      Int.le_of_eq (Frame.offset_of_mem_breakAt hins)
    have hinterior := Between.left hbehind (b := c.start) (by omega) fun ins hins => by
      have := hrest ins hins
      omega
    have hcloser := Between.right hbehind (b := c.start) (by omega) fun ins hins =>
      (hinner ins hins).2
    have hnone := Between.left (p := []) hcloser (b := c.stop) (by omega) hrest
    have hlast := Between.right (p := []) hcloser (b := c.stop) (by omega) (by simp)
    rw [along_append (show i ≤ o.stop by omega) (show o.stop ≤ j by omega),
      ho.along_charThenBreaks _ hpw hopener, along_append hile (show c.start ≤ j by omega),
      ihi hinterior, along_append (Nat.le_of_lt hlt) hle, hc.along_quiet hpw hnone, ihr hlast,
      Forest.written, List.append_assoc]

/-- **The overlay of a layout is what the layout writes.** -/
theorem Laid.overlay_eq_written (h : Laid src 0 f src.length) (hatoms : page.atoms = [])
    (top : Frame) (col : Int) :
    overlay src.text (f.breaks page top col) [] = f.written page top col := by
  have hpw := h.pairwise_breaks page top col
  have hbounds : ∀ ins ∈ f.breaks page top col, 0 < ins.offset ∧ ins.offset ≤ src.length := by
    intro ins hins
    obtain ⟨x, -, hx, hx', hx''⟩ := h.mem_breaks hins
    omega
  have hlength : src.text.length = src.length := List.length_map _
  have hlay : Layable src.text.length (f.breaks page top col) [] := by
    refine ⟨hpw, fun ins hins => ?_, .nil, by simp, by simp⟩
    have := hbounds ins hins
    rw [hlength]
    omega
  have hshown : ∀ o, (piecesAt src.text (f.breaks page top col) [] o).flatMap Piece.shown =
      breaksAt (f.breaks page top col) o ++ src.text[o]?.toList := by
    intro o
    simp only [piecesAt, List.filter_nil, List.map_nil, List.append_nil, List.flatMap_append]
    rw [flatMap_kept fun _ => rfl, keptAt_shown (by simp), List.flatMap_map]
    rfl
  have hzero : breaksAt (f.breaks page top col) (0 : Nat) = [] := by
    unfold breaksAt
    rw [List.filter_eq_nil_iff.mpr fun ins hins => by
      have := hbounds ins hins
      rw [beq_iff_eq]
      omega]
    rfl
  rw [hlay.overlay_eq_pieces, pieces_eq_along, along, List.flatMap_assoc,
    List.flatMap_congr fun o _ => hshown o]
  have hturn := along_turn (fun o => breaksAt (f.breaks page top col) o)
    (fun o => src.text[o]?.toList) src.length
  unfold along at hturn
  rw [Nat.sub_zero, hlength]
  rw [Nat.sub_zero] at hturn
  rw [hturn, hzero, List.nil_append, List.getElem?_eq_none (by omega),
    ← h.along_eq_written hatoms hpw fun _ _ _ => Iff.rfl]
  exact List.append_nil _

/-! ### Whole groups -/

theorem Forest.pastInterior_of_shown (hatoms : page.atoms = []) (top : Frame) (col : Int)
    (o : Token) (inner : Forest Token) (c : Token) : pastInterior page top col o inner c =
      inner.column page (page.frame top col o c) (page.inside top col o c) := by
  rw [pastInterior, Page.behind, hatoms]
  rfl

/-- Where nothing is hidden, a group is whole iff it is empty or fits. -/
theorem Page.frame_broken_iff (hatoms : page.atoms = []) (top : Frame) (col : Int) (o c : Token) :
    (page.frame top col o c).broken = true ↔
      o.stop ≠ c.start ∧ page.width < col + o.glyphs.length + (c.start + 1 - o.stop) := by
  have hcolumns : Atom.columns page.atoms ⟨o.stop, c.start + 1⟩ = (c.start : Int) + 1 - o.stop := by
    rw [hatoms, Atom.columns, List.foldl_nil]
    push_cast
    rfl
  rw [Page.frame, Frame.enter, hcolumns]
  split_ifs with hfit
  · simp only [false_iff]
    omega
  · simp only [true_iff]
    omega

/-- **A forest with room for all of it is written as it stands.** -/
theorem Laid.written_of_room (h : Laid src i f j) (hatoms : page.atoms = []) :
    ∀ {top : Frame} (col : Int), top.broken = false → col + ((j : Int) - i) ≤ page.width →
      f.written page top col = Glyph.text (f.word.flatMap Token.glyphs) ∧
        f.column page top col = col + ((j : Int) - i) := by
  induction h with
  | nil =>
    intro top col _ _
    simp [Forest.written, Forest.word, Forest.column, Glyph.text]
  | @item i j t rest ht hb hr ih =>
    intro top col hwhole hroom
    obtain ⟨hs, hlt, hle⟩ := Laid.item_bounds ht hr
    have hstop : t.stop = t.start + t.glyphs.length := rfl
    obtain ⟨htext, hcolumn⟩ := ih (t.past top col) hwhole (by
      rw [Token.past_of_whole hwhole]
      omega)
    constructor
    · rw [Forest.written, htext, Frame.breakText_of_whole hwhole, ite_self, Forest.word,
        List.flatMap_cons, Glyph.text, Glyph.text, List.map_append]
      rfl
    · rw [Forest.column, hcolumn, Token.past_of_whole hwhole]
      omega
  | @group i j b o c inner rest ho hob hi hc hcb hr ihi ihr =>
    intro top col hwhole hroom
    obtain ⟨hstart, hostop, hile, hlt, hle⟩ := Laid.group_bounds ho hob hi hc hr
    have ho' : o.stop = o.start + o.glyphs.length := rfl
    have hc' : c.stop = c.start + c.glyphs.length := rfl
    have hfits : (page.frame top col o c).broken = false := by
      rw [← Bool.not_eq_true, Page.frame_broken_iff hatoms]
      omega
    have hinside : page.inside top col o c = col + o.glyphs.length := Frame.resume_of_whole hfits _
    obtain ⟨hitext, hicolumn⟩ := ihi (page.inside top col o c) hfits (by omega)
    have hpast : Forest.pastInterior page top col o inner c + c.glyphs.length =
        col + ((c.stop : Int) - i) := by
      rw [Forest.pastInterior_of_shown hatoms, hicolumn]
      omega
    obtain ⟨hrtext, hrcolumn⟩ := ihr (col + ((c.stop : Int) - i)) hwhole (by omega)
    constructor
    · rw [Forest.written, hpast, hitext, hrtext, Frame.breakText_of_whole hfits]
      simp [Forest.word, Glyph.text, Token.text]
    · rw [Forest.column, ← Forest.pastInterior, hpast, hrcolumn]
      omega

end Written

end DiagLayout
