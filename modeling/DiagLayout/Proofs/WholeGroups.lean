import DiagLayout.Proofs.FillRule

/-!
# Groups that fit

A group that fits into the columns left behind its opener is left whole, with all groups in it. What
is inside is asked again whether it fits, each time with fewer columns left, and always does:
`Page.Room` says that all that is shown of a stretch stays within the width, and it passes from a
stretch to its parts (`Filled.room_item`, `Filled.room_interior`, `Filled.room_behind`). Where there
is room no line is broken (`Filled.breaks_of_room`).

The frames of the printer are therefore staged: outside the broken groups, and inside them the whole
ones (`Frame.Staged`). This holds at every moment of a run (`Filled.always_moment`).

This needs nothing of the placeholder (`exists_layOut_moments`). That the brackets of a group that
fits are on one line needs a placeholder without line feeds. The main result is
`fitting_group_left_whole`.
-/

namespace DiagLayout

/-! ### Whole frames -/

section Whole

variable {frame : Frame} (h : frame.broken = false)
include h

theorem Frame.resume_of_whole (col : Int) : frame.resume col = col := by
  simp [resume, h]

theorem Frame.breakAt_of_whole (x : Nat) : frame.breakAt x = [] := by
  simp [breakAt, h]

theorem Token.past_of_whole (t : Token) (col : Int) :
    t.past frame col = col + t.glyphs.length := by
  unfold past
  split_ifs
  · exact Frame.resume_of_whole h _
  · rfl

end Whole

/-! ### Room -/

theorem Source.visibleLength_append (src : Source) (hidden : List Placeholder) {i j k : Nat}
    (hij : i ≤ j) (hjk : j ≤ k) : src.visibleLength hidden i k =
      src.visibleLength hidden i j + src.visibleLength hidden j k := by
  unfold visibleLength
  rw [along_append hij hjk, List.length_append]
  rfl

theorem Source.visibleLength_nonneg (src : Source) (hidden : List Placeholder) (i j : Nat) :
    0 ≤ src.visibleLength hidden i j := Int.natCast_nonneg _

/-- **Room**: the frame is whole, and what is shown of the positions from `i` up to `j`, if
anything, stays within the width from column `col` on. -/
structure Page.Room (page : Page) (src : Source) (hidden : List Placeholder) (i j : Nat)
    (top : Frame) (col : Int) : Prop where
  whole : top.broken = false
  fits : 0 < src.visibleLength hidden i j → col + src.visibleLength hidden i j ≤ page.width

section Room

variable {src : Source} {hidden : List Placeholder} {is : List Instruction} {page : Page}
  {start : Nat} {indent : Int} {i j : Nat} {top : Frame} {col : Int}

theorem Layable.visibleLength_token (hlay : Layable src.length is hidden) {t : Token}
    (ht : t.At src i) (hap : Atom.Apart (hidden.map Placeholder.atom) t.start t.stop) :
    src.visibleLength hidden i t.stop = t.glyphs.length := by
  rw [Source.visibleLength, hlay.along_foldedAt_token ht hap]

namespace Filled

variable (hlay : Layable src.length is hidden) (hatoms : page.atoms = hidden.map Placeholder.atom)
include hlay

/-- What is shown of a forest is its first token and the rest. -/
theorem visibleLength_item {t : Token} {rest : Forest Token}
    (h : Filled src hidden is page start indent i (.item t rest) j top col) :
    src.visibleLength hidden i j = t.glyphs.length + src.visibleLength hidden t.stop j := by
  obtain ⟨hap, -⟩ := h.folds
  cases h.laid with
  | item ht hb hr =>
    obtain ⟨hs, hlt, hle⟩ := Laid.item_bounds ht hr
    rw [src.visibleLength_append hidden (Nat.le_of_lt hlt) hle, hlay.visibleLength_token ht hap]

theorem room_item {t : Token} {rest : Forest Token}
    (h : Filled src hidden is page start indent i (.item t rest) j top col)
    (hroom : page.Room src hidden i j top col) :
    page.Room src hidden t.stop j top (t.past top col) := by
  have hlength := h.visibleLength_item hlay
  refine ⟨hroom.whole, fun hpos => ?_⟩
  have hfits := hroom.fits (by omega)
  rw [Token.past_of_whole hroom.whole]
  omega

section Group

variable {o c : Token} {inner rest : Forest Token}
  (h : Filled src hidden is page start indent i (.group o inner c rest) j top col)
include h

/-- The brackets of a group are shown as they are. -/
theorem foldedAt_brackets : src.foldedAt hidden o.start = src[o.start]?.toList ∧
    src.foldedAt hidden c.start = src[c.start]?.toList := by
  obtain ⟨hapo, hapc, -, -⟩ := h.folds
  cases h.laid with
  | group ho hob hin hc hcb hr =>
    exact ⟨foldedAt_apart src hapo hlay.span_lt (Nat.le_refl _) ho.formed.lt_stop,
      foldedAt_apart src hapc hlay.span_lt (Nat.le_refl _) hc.formed.lt_stop⟩

/-- What is shown of a group: the opener, the interior and the closer. -/
theorem visibleLength_group : src.visibleLength hidden i j = o.glyphs.length +
    src.visibleLength hidden o.stop c.start + c.glyphs.length +
      src.visibleLength hidden c.stop j := by
  obtain ⟨hapo, hapc, -, -⟩ := h.folds
  cases h.laid with
  | group ho hob hin hc hcb hr =>
    obtain ⟨hos, hostop, hile, hlt, hrle⟩ := Laid.group_bounds ho hob hin hc hr
    rw [src.visibleLength_append hidden (show i ≤ o.stop by omega) (show o.stop ≤ j by omega),
      src.visibleLength_append hidden hile (show c.start ≤ j by omega),
      src.visibleLength_append hidden (Nat.le_of_lt hlt) hrle,
      hlay.visibleLength_token ho hapo, hlay.visibleLength_token hc hapc]
    omega

/-- The length of a group counts the bracket that closes it. -/
theorem visibleLength_closer : src.visibleLength hidden o.stop (c.start + 1) =
    src.visibleLength hidden o.stop c.start + 1 := by
  have hshown := (h.foldedAt_brackets hlay).2
  have hstop := h.stop_le
  cases h.laid with
  | group ho hob hin hc hcb hr =>
    obtain ⟨hos, hostop, hile, hlt, hrle⟩ := Laid.group_bounds ho hob hin hc hr
    have hone : src.visibleLength hidden c.start (c.start + 1) = 1 := by
      rw [Source.visibleLength, along_one, hshown, List.getElem?_eq_getElem (by omega)]
      rfl
    rw [src.visibleLength_append hidden hile (Nat.le_succ _), hone]

theorem room_behind_of (hroom : page.Room src hidden i j top col)
    (hpast : Forest.pastInterior page top col o inner c =
      col + o.glyphs.length + src.visibleLength hidden o.stop c.start) :
    page.Room src hidden c.stop j top
      (Forest.pastInterior page top col o inner c + c.glyphs.length) := by
  have hlength := h.visibleLength_group hlay
  have hinner := src.visibleLength_nonneg hidden o.stop c.start
  refine ⟨hroom.whole, fun hpos => ?_⟩
  have hfits := hroom.fits (by omega)
  rw [hpast]
  omega

include hatoms

/-- A group is whole iff its interior is empty or fits, with the bracket behind it. -/
theorem whole_iff : (page.frame top col o c).broken = false ↔
    src.visibleLength hidden o.stop c.start = 0 ∨
      col + o.glyphs.length + src.visibleLength hidden o.stop c.start + 1 ≤ page.width := by
  rw [← Bool.not_eq_true, h.broken_iff hlay hatoms, h.pen_opener hlay, h.visibleLength_closer hlay]
  omega

/-- Where there is room for a group and what follows it, the group fits. -/
theorem whole_of_room (hroom : page.Room src hidden i j top col) :
    (page.frame top col o c).broken = false := by
  have hlength := h.visibleLength_group hlay
  have hrest := src.visibleLength_nonneg hidden c.stop j
  have hinner := src.visibleLength_nonneg hidden o.stop c.start
  have hclose : c.start < c.stop := by
    cases h.laid with
    | group ho hob hin hc hcb hr => exact hc.formed.lt_stop
  rw [Token.stop] at hclose
  have hfits := hroom.fits (by omega)
  exact (h.whole_iff hlay hatoms).mpr (Or.inr (by omega))

/-- In the frame of a group that is whole there is room for its interior. -/
theorem room_interior (hwhole : (page.frame top col o c).broken = false) :
    page.Room src hidden o.stop c.start (page.frame top col o c) (page.inside top col o c) := by
  have hfits := (h.whole_iff hlay hatoms).mp hwhole
  refine ⟨hwhole, fun hpos => ?_⟩
  rw [Page.inside, Frame.resume_of_whole hwhole]
  omega

/-- Behind the interior of a whole group, if the interior stays on its line. -/
theorem pastInterior_of_whole (hwhole : (page.frame top col o c).broken = false)
    (hshown : placeholderAt hidden o.stop = none →
      inner.column page (page.frame top col o c) (page.inside top col o c) =
        page.inside top col o c + src.visibleLength hidden o.stop c.start) :
    Forest.pastInterior page top col o inner c =
      col + o.glyphs.length + src.visibleLength hidden o.stop c.start := by
  have hinside : page.inside top col o c = col + o.glyphs.length := Frame.resume_of_whole hwhole _
  unfold Forest.pastInterior Page.behind
  rw [startingAt_page hatoms]
  cases hat : placeholderAt hidden o.stop with
  | none => rw [← hinside]; exact hshown hat
  | some p =>
    obtain ⟨hp, hs⟩ := placeholderAt_eq_some hat
    obtain ⟨-, -, hspan, -⟩ := h.folds
    rw [hat] at hspan
    have hlength : src.visibleLength hidden o.stop c.start = p.text.length := by
      rw [Source.visibleLength, hlay.along_foldedAt_span src hp hs (by rw [hspan]),
        Placeholder.length_glyphs]
    rw [hlength, ← hinside]
    rfl

end Group

include hatoms

/-- **Where there is room no line is broken**, and the pen moves on by what is shown. -/
theorem breaks_of_room {f : Forest Token}
    (h : Filled src hidden is page start indent i f j top col)
    (hroom : page.Room src hidden i j top col) : f.breaks page top col = [] ∧
      f.column page top col = col + src.visibleLength hidden i j := by
  induction f generalizing i j top col with
  | nil =>
    obtain rfl := h.laid.eq_of_nil
    have hnone : src.visibleLength hidden i i = 0 := by
      rw [Source.visibleLength, along_eq_nil (by omega)]
      rfl
    rw [hnone, Int.add_zero]
    exact ⟨rfl, rfl⟩
  | item t rest ih =>
    obtain ⟨hbreaks, hcolumn⟩ := ih (h.item hlay) (h.room_item hlay hroom)
    unfold Forest.breaks Forest.column
    rw [hbreaks, hcolumn, Token.past_of_whole hroom.whole, Frame.breakAt_of_whole hroom.whole,
      h.visibleLength_item hlay]
    refine ⟨by simp, by omega⟩
  | group o inner c rest ihi ihr =>
    have hwhole := h.whole_of_room hlay hatoms hroom
    have hinner := fun hnone =>
      ihi (h.interior hlay hatoms hnone) (h.room_interior hlay hatoms hwhole)
    have hpast := h.pastInterior_of_whole hlay hatoms hwhole fun hnone => (hinner hnone).2
    obtain ⟨hbreaks, hcolumn⟩ := ihr (h.behind hlay hatoms) (h.room_behind_of hlay hroom hpast)
    constructor
    · rw [Forest.breaks, Frame.breakAt_of_whole hwhole, hbreaks, Page.within]
      rw [startingAt_page hatoms]
      cases hat : placeholderAt hidden o.stop with
      | none => rw [(hinner hat).1]; rfl
      | some p => rfl
    · have hlength := h.visibleLength_group hlay
      unfold Forest.pastInterior at hcolumn hpast
      rw [Forest.column, hcolumn, hpast, hlength]
      omega

section Group

variable {o c : Token} {inner rest : Forest Token}
  (h : Filled src hidden is page start indent i (.group o inner c rest) j top col)
include h

theorem room_behind (hroom : page.Room src hidden i j top col) :
    page.Room src hidden c.stop j top
      (Forest.pastInterior page top col o inner c + c.glyphs.length) := by
  have hwhole := h.whole_of_room hlay hatoms hroom
  refine h.room_behind_of hlay hroom
    (h.pastInterior_of_whole hlay hatoms hwhole fun hnone => ?_)
  exact ((h.interior hlay hatoms hnone).breaks_of_room hlay hatoms
    (h.room_interior hlay hatoms hwhole)).2

/-- **From the opener of a whole group up to its closer no line is broken.** -/
theorem unbroken_of_whole (hwhole : (page.frame top col o c).broken = false) :
    ∀ ins ∈ is, ins.offset ≤ o.start ∨ (c.start : Int) < ins.offset := by
  have hopener := h.settled_opener
  have hinterior := h.settled_interior
  intro ins hins
  cases h.laid with
  | group ho hob hin hc hcb hr =>
    have hos := ho.start_eq
    by_contra hcon
    by_cases hle : ins.offset ≤ o.stop
    · have hbreak := (hopener ins (by omega) hle).mp hins
      rw [Frame.breakAt_of_whole hwhole] at hbreak
      cases hbreak
    · obtain ⟨hnone, hbreak⟩ := (hinterior ins (by omega) (by omega)).mp hins
      rw [startingAt_page_eq_none hatoms] at hnone
      rw [((h.interior hlay hatoms hnone).breaks_of_room hlay hatoms
        (h.room_interior hlay hatoms hwhole)).1] at hbreak
      cases hbreak

end Group

end Filled

end Room

/-! ### The moments of a run -/

namespace Printer

/-- **At every moment of the run** the printer, with the events still to come, is as `P` says. -/
def Always (P : Printer → List Event → Prop) (p : Printer) (events : List Event) : Prop :=
  ∀ pre post, events = pre ++ post → ∃ q : Printer, p.run pre = .ok q ∧ P q post

variable {P : Printer → List Event → Prop} {p q : Printer}

theorem always_nil (h : P p []) : p.Always P [] := by
  intro pre post hsplit
  obtain ⟨rfl, rfl⟩ := List.append_eq_nil_iff.mp hsplit.symm
  exact ⟨p, rfl, h⟩

theorem always_cons {event : Event} {events : List Event} (h : P p (event :: events))
    (hrun : p.run [event] = .ok q) (hq : q.Always P events) : p.Always P (event :: events) := by
  intro pre post hsplit
  cases pre with
  | nil =>
    rw [List.nil_append] at hsplit
    exact ⟨p, rfl, hsplit ▸ h⟩
  | cons event' pre =>
    obtain ⟨rfl, rfl⟩ := List.cons.inj hsplit
    obtain ⟨r, hr, hpost⟩ := hq pre post rfl
    refine ⟨r, ?_, hpost⟩
    rw [← List.singleton_append, run_append, hrun]
    exact hr

theorem Always.imp {P' : Printer → List Event → Prop} {events : List Event} (h : p.Always P events)
    (himp : ∀ q post, P q post → P' q post) : p.Always P' events := by
  intro pre post hsplit
  obtain ⟨q, hrun, hq⟩ := h pre post hsplit
  exact ⟨q, hrun, himp q post hq⟩

theorem breakOffset_of_run {pre : List Event} {span : Span} {width : Int}
    (h : p.run (pre ++ [.text span width]) = .ok q) : q.breakOffset = span.stop := by
  rw [run_append] at h
  cases hpre : p.run pre with
  | error f =>
    rw [hpre] at h
    cases h
  | ok r =>
    rw [hpre] at h
    cases h
    rfl

end Printer

/-- **Staged frames**, the innermost first: frames of whole groups, frames of broken groups, and the
frame that the layout starts in. -/
structure Frame.Staged (indent : Int) (whole broken frames : List Frame) : Prop where
  frames_eq : frames = whole ++ broken ++ [⟨false, indent⟩]
  whole_eq : ∀ frame ∈ whole, frame.broken = false
  broken_eq : ∀ frame ∈ broken, frame.broken = true

/-- A broken group is entered only in broken groups. -/
theorem Frame.Staged.push {indent : Int} {whole broken frames : List Frame}
    (h : Staged indent whole broken frames) {frame : Frame}
    (hframe : frame.broken = true → whole = []) : ∃ whole' broken',
      Staged indent whole' broken' (frame :: frames) ∧ (whole' ≠ [] → frame.broken = false) := by
  cases hb : frame.broken with
  | false =>
    refine ⟨frame :: whole, broken, ⟨?_, ?_, h.broken_eq⟩, fun _ => rfl⟩
    · rw [h.frames_eq]
      rfl
    · exact List.forall_mem_cons.mpr ⟨hb, h.whole_eq⟩
  | true =>
    obtain rfl := hframe hb
    refine ⟨[], frame :: broken, ⟨?_, h.whole_eq, ?_⟩, fun hne => absurd rfl hne⟩
    · rw [h.frames_eq]
      rfl
    · exact List.forall_mem_cons.mpr ⟨hb, h.broken_eq⟩

/-- The printer stands behind the opener at `o`, and is to enter its group at length `n`. The length
is that of what is shown up to the closer at `c`, and the space is what the pen has left of the
line. -/
structure Enters (src : Source) (e : Extent) (width indent : Int) (hidden : List Placeholder)
    (is : List Instruction) (q : Printer) (n : Int) (o c : Nat) : Prop where
  group : src.GroupIn e o c
  shown : isHidden hidden o = false
  offset : q.breakOffset = o + 1
  length : n = src.visibleLength hidden (o + 1) (c + 1)
  space : q.space = width - penColumn src.text is hidden indent e.start (o + 1)

/-- **A moment of a layout**: the frames are staged, and where a group is entered next that fits
into the space left, it is as `left` says. -/
def Moment (src : Source) (e : Extent) (width indent : Int) (hidden : List Placeholder)
    (is : List Instruction) (left : Nat → Nat → Prop) (q : Printer) (post : List Event) : Prop :=
  (∃ whole broken, Frame.Staged indent whole broken q.frames) ∧
    ∀ n rest, post = .enter n :: rest → ∃ o c, Enters src e width indent hidden is q n o c ∧
      (n ≤ q.space → left o c)

/-- The brackets of the group are shown, and no line is broken behind the opener up to the closer.
-/
structure Unbroken (src : Source) (hidden : List Placeholder) (is : List Instruction) (o c : Nat) :
    Prop where
  opener : src.foldedAt hidden o = src[o]?.toList
  closer : src.foldedAt hidden c = src[c]?.toList
  unbroken : ∀ i ∈ is, i.offset ≤ o ∨ (c : Int) < i.offset

section Moments

variable {src : Source} {hidden : List Placeholder} {is : List Instruction} {page : Page}
  {e : Extent} {indent : Int} {i j : Nat} {top : Frame} {below whole broken : List Frame}
  {col : Int} {p : Printer}
  (hlay : Layable src.length is hidden) (hatoms : page.atoms = hidden.map Placeholder.atom)

theorem Frame.Staged.moment (hstaged : Staged indent whole broken (top :: below))
    (hp : p.Stands page (top :: below) col) {post : List Event}
    (hpost : ∀ n rest, post ≠ .enter n :: rest) :
    Moment src e page.width indent hidden is (Unbroken src hidden is) p post :=
  ⟨⟨whole, broken, hp.frames_eq ▸ hstaged⟩, fun n rest heq => absurd heq (hpost n rest)⟩

include hlay hatoms

theorem Filled.enters {o c : Token} {inner rest : Forest Token}
    (h : Filled src hidden is page e.start indent i (.group o inner c rest) j top col)
    (hj : j ≤ e.stop) (hp : p.Stands page (top :: below) (col + o.glyphs.length))
    (hoffset : p.breakOffset = o.stop) :
    Enters src e page.width indent hidden is p (Atom.columns page.atoms ⟨o.stop, c.start + 1⟩)
      o.start c.start ∧
    (Atom.columns page.atoms ⟨o.stop, c.start + 1⟩ ≤ p.space →
      Unbroken src hidden is o.start c.start) := by
  have hlength := h.columns_group hlay hatoms
  have hpen := h.pen_opener hlay
  have hbroken := h.broken_iff hlay hatoms
  have hunbroken := h.unbroken_of_whole hlay hatoms
  have hbrackets := h.foldedAt_brackets hlay
  have hspace := hp.space_eq
  have hstart := h.start_le
  obtain ⟨hapo, -⟩ := h.folds
  cases h.laid with
  | group ho hob hin hc hcb hr =>
    obtain ⟨hos, hostop, hile, hlt, hrle⟩ := Laid.group_bounds ho hob hin hc hr
    rw [← hpen] at hspace
    refine ⟨⟨⟨Laid.groupAt ho hob hin hc hcb, by omega, by omega⟩,
      isHidden_eq_false hapo (Nat.le_refl _) (by omega), by omega, ?_, ?_⟩,
      fun hfit => ⟨hbrackets.1, hbrackets.2, hunbroken ?_⟩⟩
    · rw [hlength, hostop]
    · rw [hspace, hostop]
    · rw [← Bool.not_eq_true, hbroken, ← hspace, ← hlength]
      omega

theorem Filled.moment_enter {o c : Token} {inner rest : Forest Token}
    (h : Filled src hidden is page e.start indent i (.group o inner c rest) j top col)
    (hj : j ≤ e.stop) (hp : p.Stands page (top :: below) (col + o.glyphs.length))
    (hoffset : p.breakOffset = o.stop) (hstaged : Frame.Staged indent whole broken (top :: below))
    (events : List Event) : Moment src e page.width indent hidden is (Unbroken src hidden is) p
      (.enter (Atom.columns page.atoms ⟨o.stop, c.start + 1⟩) :: events) := by
  refine ⟨⟨whole, broken, hp.frames_eq ▸ hstaged⟩, fun n events' heq => ?_⟩
  obtain ⟨hn, -⟩ := List.cons.inj heq
  obtain rfl := Event.enter.inj hn
  exact ⟨_, _, h.enters hlay hatoms hj hp hoffset⟩

/-- **Every moment of the layout of a forest.** -/
theorem Filled.always_moment {f : Forest Token} :
    ∀ {i j : Nat} {top : Frame} {below whole broken : List Frame} {col : Int} {p : Printer}
      {events : List Event}, Filled src hidden is page e.start indent i f j top col → j ≤ e.stop →
      p.Stands page (top :: below) col → Frame.Staged indent whole broken (top :: below) →
      (whole ≠ [] → page.Room src hidden i j top col) →
      (∀ q : Printer, q.Stands page (top :: below) (f.column page top col) →
        q.Always (Moment src e page.width indent hidden is (Unbroken src hidden is)) events) →
      p.Always (Moment src e page.width indent hidden is (Unbroken src hidden is))
        (f.events page.atoms ++ events) := by
  induction f with
  | nil =>
    intro i j top below whole broken col p events h hj hp hstaged hroom hnext
    exact hnext p hp
  | item t rest ih =>
    intro i j top below whole broken col p events h hj hp hstaged hroom hnext
    obtain ⟨p₁, h₁, hs₁, hx₁⟩ := Printer.exists_writes_text hp t.extent.span t.glyphs.length
    have hrest : ∀ p₂ : Printer, p₂.Stands page (top :: below) (t.past top col) →
        p₂.Always (Moment src e page.width indent hidden is (Unbroken src hidden is))
          (rest.events page.atoms ++ events) :=
      fun p₂ hp₂ => ih (h.item hlay) hj hp₂ hstaged
        (fun hne => h.room_item hlay (hroom hne)) hnext
    refine Printer.always_cons (hstaged.moment hp (by simp [Token.textEvent])) h₁.run_eq ?_
    unfold Token.past at hrest
    split_ifs at hrest ⊢ with hk
    · obtain ⟨p₂, h₂, hs₂⟩ := Printer.exists_writes_gap hs₁ hx₁
      exact Printer.always_cons (hstaged.moment hs₁ (by simp)) h₂.run_eq (hrest p₂ hs₂)
    · exact hrest p₁ hs₁
  | group o inner c rest ihi ihr =>
    intro i j top below whole broken col p events h hj hp hstaged hroom hnext
    have hle : c.start ≤ e.stop := by
      cases h.laid with
      | group ho hob hin hc hcb hr =>
        have := Laid.group_bounds ho hob hin hc hr
        omega
    obtain ⟨p₁, h₁, hs₁, hx₁⟩ := Printer.exists_writes_text hp o.extent.span o.glyphs.length
    obtain ⟨p₂, h₂, hs₂⟩ := Printer.exists_writes_enter hs₁ hx₁
      (Atom.columns page.atoms ⟨o.stop, c.start + 1⟩)
    -- a group is broken only where there are broken groups around it
    obtain ⟨whole', broken', hstaged', hwhole⟩ :
        ∃ whole' broken', Frame.Staged indent whole' broken'
          (page.frame top col o c :: top :: below) ∧
          (whole' ≠ [] → (page.frame top col o c).broken = false) := by
      refine hstaged.push fun hb => ?_
      by_contra hne
      rw [h.whole_of_room hlay hatoms (hroom hne)] at hb
      cases hb
    -- the closer, in the frame of the group, and what is behind it
    have hclose : ∀ p₃ : Printer, p₃.Stands page (page.frame top col o c :: top :: below)
        (Forest.pastInterior page top col o inner c) →
        p₃.Always (Moment src e page.width indent hidden is (Unbroken src hidden is))
          (c.textEvent :: .exit :: (rest.events page.atoms ++ events)) := by
      intro p₃ hs₃
      obtain ⟨p₄, h₄, hs₄, -⟩ := Printer.exists_writes_text hs₃ c.extent.span c.glyphs.length
      obtain ⟨p₅, h₅, hs₅⟩ := Printer.exists_writes_exit hs₄
      refine Printer.always_cons (hstaged'.moment hs₃ (by simp [Token.textEvent])) h₄.run_eq ?_
      refine Printer.always_cons (hstaged'.moment hs₄ (by simp)) h₅.run_eq ?_
      exact ihr (h.behind hlay hatoms) hj hs₅ hstaged
        (fun hne => h.room_behind hlay hatoms (hroom hne)) hnext
    unfold Forest.events
    rw [List.cons_append, List.cons_append, List.append_assoc, List.cons_append, List.cons_append]
    refine Printer.always_cons (hstaged.moment hp (by simp [Token.textEvent])) h₁.run_eq ?_
    refine Printer.always_cons (h.moment_enter hlay hatoms hj hs₁ hx₁ hstaged _) h₂.run_eq ?_
    cases hat : Atom.startingAt page.atoms o.stop with
    | some a =>
      obtain ⟨p₃, h₃, hs₃, -⟩ := Printer.exists_writes_text hs₂ a.span a.width
      refine Printer.always_cons (hstaged'.moment hs₂ (by simp)) h₃.run_eq (hclose p₃ ?_)
      unfold Forest.pastInterior Page.behind
      rw [hat]
      exact hs₃
    | none =>
      have hinterior := h.interior hlay hatoms ((startingAt_page_eq_none hatoms).mp hat)
      refine ihi hinterior hle hs₂ hstaged'
        (fun hne => h.room_interior hlay hatoms (hwhole hne)) fun q hq => hclose q ?_
      unfold Forest.pastInterior Page.behind
      rw [hat]
      exact hq

/-- Every group that is shown is entered, behind the text of its opener. -/
theorem Filled.exists_enter {f : Forest Token}
    (h : Filled src hidden is page e.start indent i f j top col) : ∀ {d d' : Int} {o c : Nat},
      (⟨(o : Int) + 1, c, d'⟩ : Region) ∈ f.regions d → isHidden hidden o = false →
      ∃ pre span width n post, span.stop = (o : Int) + 1 ∧
        f.events page.atoms = pre ++ .text span width :: .enter n :: post := by
  induction f generalizing i j top col with
  | nil => intro d d' o c hmem; cases hmem
  | item t rest ih =>
    intro d d' o c hmem hshown
    obtain ⟨pre, span, width, n, post, hspan, hevents⟩ := ih (h.item hlay) hmem hshown
    refine ⟨t.textEvent :: ((if t.kind = .separator then [.gap] else []) ++ pre), span, width, n,
      post, hspan, ?_⟩
    rw [Forest.events, hevents, List.cons_append, List.append_assoc]
  | group ot inner ct rest ihi ihr =>
    intro d d' o c hmem hshown
    simp only [Forest.regions, List.mem_cons, List.mem_append] at hmem
    rcases hmem with hmem | hmem | hmem
    · cases h.laid with
      | group ho hob hin hc hcb hr =>
        have hostop := ho.formed.stop_opener hob
        simp only [Region.mk.injEq] at hmem
        refine ⟨[], ot.extent.span, ot.glyphs.length, _, _, ?_, rfl⟩
        change (ot.stop : Int) = o + 1
        omega
    · cases hat : placeholderAt hidden ot.stop with
      | none =>
        obtain ⟨pre, span, width, n, post, hspan, hevents⟩ :=
          ihi (h.interior hlay hatoms hat) hmem hshown
        have hnone := (startingAt_page_eq_none hatoms).mpr hat
        refine ⟨ot.textEvent :: .enter (Atom.columns page.atoms ⟨ot.stop, ct.start + 1⟩) :: pre,
          span, width, n, post ++ ct.textEvent :: .exit :: rest.events page.atoms, hspan, ?_⟩
        rw [Forest.events, hnone]
        simp [hevents]
      | some ph =>
        cases h.laid with
        | group ho hob hin hc hcb hr =>
          have hb := hin.region_bounds hmem
          simp only at hb
          rw [h.isHidden_interior hat (by omega) (by omega)] at hshown
          cases hshown
    · obtain ⟨pre, span, width, n, post, hspan, hevents⟩ :=
        ihr (h.behind hlay hatoms) hmem hshown
      -- all events of the group stand in front
      obtain ⟨front, hfront⟩ : ∃ front, (Forest.group ot inner ct rest).events page.atoms =
          ot.textEvent :: .enter (Atom.columns page.atoms ⟨ot.stop, ct.start + 1⟩) ::
            (front ++ ct.textEvent :: .exit :: rest.events page.atoms) := ⟨_, rfl⟩
      refine ⟨ot.textEvent :: .enter (Atom.columns page.atoms ⟨ot.stop, ct.start + 1⟩) ::
        (front ++ ct.textEvent :: .exit :: pre), span, width, n, post, hspan, ?_⟩
      rw [hfront, hevents]
      simp

end Moments

/-! ### The rendered group -/

/-- What is shown of the positions from `i` up to `j`. -/
def Source.shownText (src : Source) (hidden : List Placeholder) (i j : Nat) : Text :=
  Glyph.text (along (src.foldedAt hidden) i j)

/-- **The group is kept whole.** No line is broken behind its opener up to its closer. In the text
rendered from column `indent` on, the opener, what is shown of the interior and the closer follow
each other, and the closer ends within the width. -/
structure KeptWhole (src : Source) (e : Extent) (width indent : Int) (hidden : List Placeholder)
    (is : List Instruction) (o c : Nat) : Prop where
  unbroken : ∀ i ∈ is, ¬ ((o : Int) < i.offset ∧ i.offset ≤ c)
  rendered : ∃ (before after : Text) (opener closer : Char),
    src.text[o]? = some opener ∧ src.text[c]? = some closer ∧
    penText src.text is hidden e.start (o + 1) = before ++ [opener] ∧
    overlay src.text is hidden = src.text.take e.start ++
      (before ++ opener :: (src.shownText hidden (o + 1) c ++ closer :: after)) ∧
    (Text.endColumn (List.replicate indent.toNat ' ' ++
      (before ++ opener :: (src.shownText hidden (o + 1) c ++ [closer]))) : Int) ≤ width

/-- **The group is left whole**: it is kept whole, and its brackets are on one line. -/
structure LeftWhole (src : Source) (e : Extent) (width indent : Int) (hidden : List Placeholder)
    (is : List Instruction) (o c : Nat) : Prop
    extends KeptWhole src e width indent hidden is o c where
  line : '\n' ∉ src.shownText hidden (o + 1) c

section Rendered

variable {src : Source} {e : Extent} {width indent : Int} {hidden : List Placeholder}
  {is : List Instruction}

/-- What is shown of a stretch without line feeds has line feeds only in placeholders. -/
theorem Source.lineFeed_notMem_shownText (hline : '\n' ∉ Glyph.text (src.window e))
    (hhidden : ∀ p ∈ hidden, '\n' ∉ p.text) {i j : Nat} (hi : e.start ≤ i) (hj : j ≤ e.stop) :
    '\n' ∉ src.shownText hidden i j := by
  intro hmem
  obtain ⟨g, hg, hchar⟩ := List.mem_map.mp hmem
  obtain ⟨x, hx, hg⟩ := List.mem_flatMap.mp hg
  obtain ⟨h1, h2⟩ := List.mem_range'_1.mp hx
  rcases List.mem_append.mp hg with hg | hg
  · obtain ⟨p, hp, hg⟩ := List.mem_flatMap.mp hg
    obtain ⟨ch, hch, rfl⟩ := List.mem_map.mp hg
    exact hhidden p (List.mem_of_mem_filter hp) (hchar ▸ hch)
  · split_ifs at hg
    · cases hg
    · have hat := Option.mem_toList.mp hg
      exact hline (hchar ▸ List.mem_map_of_mem (Source.mem_window hat (by omega) (by omega)))

theorem Enters.keptWhole {q : Printer} {n : Int} {o c : Nat}
    (h : Enters src e width indent hidden is q n o c) (hunbroken : Unbroken src hidden is o c)
    (hfit : n ≤ q.space) (hlay : Layable src.length is hidden) (hlen : e.stop ≤ src.length)
    (hindent : 0 ≤ indent)
    (his : ∀ i ∈ is, (e.start : Int) ≤ i.offset ∧ 0 ≤ i.indent)
    (hhidden : ∀ p ∈ hidden, (e.start : Int) ≤ p.span.start) :
    KeptWhole src e width indent hidden is o c := by
  obtain ⟨⟨hgroup, hstart, hstop⟩, -, -, hlength, hspace⟩ := h
  obtain ⟨hopen, hclose, hquiet⟩ := hunbroken
  have hlt := hgroup.lt
  obtain ⟨b, go, gc, ho, -, hc, -, -, -⟩ := hgroup
  have htext : src.text.length = src.length := List.length_map _
  have hat : ∀ {x : Nat} {g : Glyph}, src[x]? = some g → src.text[x]? = some g.char := by
    intro x g hg
    rw [Source.text, Glyph.text, List.getElem?_map, hg]
    rfl
  -- what the pen writes up to the opener, and from there up to the closer
  have hbefore : penText src.text is hidden e.start (o + 1) =
      penText src.text is hidden e.start o ++
        ((is.filter fun i => i.offset == (o : Int)).map Piece.lineBreak).flatMap Piece.shown ++
          [go.char] := by
    rw [penText_append hstart (Nat.le_succ o), penText_succ, hopen, ho, List.append_assoc]
    rfl
  have hinside : penText src.text is hidden (o + 1) (c + 1) =
      src.shownText hidden (o + 1) c ++ [gc.char] := by
    rw [penText_quiet fun ins hins => by have := hquiet ins hins; omega,
      along_append (show o + 1 ≤ c from hlt) (Nat.le_succ c), along_one, hclose, hc, Glyph.text,
      List.map_append]
    rfl
  have hpen : penColumn src.text is hidden indent e.start (c + 1) ≤ width := by
    rw [penColumn_append indent (show e.start ≤ o + 1 by omega) (show o + 1 ≤ c + 1 by omega),
      penColumn_quiet _ (by omega) fun ins hins => by have := hquiet ins hins; omega,
      breakColumn_of_forall_ne fun ins hins hx => by have := hquiet ins hins; omega]
    rw [Source.visibleLength] at hlength
    omega
  have hoverlay : overlay src.text is hidden = src.text.take e.start ++
      penText src.text is hidden e.start (o + 1) ++
        penText src.text is hidden (o + 1) (src.length + 1) := by
    rw [← htext] at hlay ⊢
    exact hlay.overlay_eq_penText (fun ins hins => (his ins hins).1) hhidden (by omega) (by omega)
  have hwritten : penText src.text is hidden e.start (c + 1) =
      penText src.text is hidden e.start (o + 1) ++
        (src.shownText hidden (o + 1) c ++ [gc.char]) := by
    rw [penText_append (show e.start ≤ o + 1 by omega) (show o + 1 ≤ c + 1 by omega), hinside]
  have hcolumn : (Text.endColumn (List.replicate indent.toNat ' ' ++
      penText src.text is hidden e.start (c + 1)) : Int) ≤ _ :=
    endColumn_le_penColumn hindent (fun i hi => (his i hi).2) e.start (c + 1)
  constructor
  · intro i hi
    have := hquiet i hi
    omega
  · refine ⟨_, penText src.text is hidden (c + 1) (src.length + 1), _, _, hat ho, hat hc, hbefore,
      ?_, ?_⟩
    · rw [hoverlay, penText_append (show o + 1 ≤ c + 1 by omega) (by omega), hinside, hbefore]
      simp
    · rw [hwritten, hbefore] at hcolumn
      simp only [List.append_assoc, List.singleton_append] at hcolumn ⊢
      exact Int.le_trans hcolumn hpen

end Rendered

section Layout

variable {src : Source} {e : Extent} (he : src.Balanced e.start e.stop) (hlen : e.stop ≤ src.length)
  {level : Option Int} (hlevel : ∀ n ∈ level, 1 ≤ n) {unit indent : Int} (hunit : 0 < unit)
  (hindent : 0 ≤ indent)
include he hlen hlevel hunit hindent

/-- **A group that fits is kept whole**, whatever the placeholder is. At every moment of the run the
frames are staged, and the groups that are entered are those that are shown. -/
theorem exists_layOut_moments (placeholder : Text) (width : Int) : ∃ regions folding is,
    src.regions e = .ok regions ∧ fold regions level placeholder = .ok folding ∧
    layOut src e width unit indent folding.atoms = .ok is ∧
    (Printer.start width unit indent e.start).Always
      (Moment src e width indent folding.placeholders is
        (KeptWhole src e width indent folding.placeholders is))
      (src.trace e folding.atoms).events ∧
    ∀ o c, src.GroupIn e o c → isHidden folding.placeholders o = false → ∃ pre n post q,
      (src.trace e folding.atoms).events = pre ++ .enter n :: post ∧
      (Printer.start width unit indent e.start).run pre = .ok q ∧
      Enters src e width indent folding.placeholders is q n o c := by
  obtain ⟨f, folding, hw, hl, hregions, hfold, hshown, hfolds, hlayOut⟩ :=
    exists_folding he hlen hlevel placeholder
  have hides := hides_of_fold hl hfold
  have htrace : src.trace e folding.atoms = ⟨f.events folding.atoms, none⟩ :=
    trace_eq_of_laid (fun a ha => Int.le_of_lt (hides.span_length_pos ha)) hlen hw hl
      (hides.agrees_of_shown hl hshown)
  let page : Page := ⟨folding.atoms, width, unit⟩
  have hplaced : Placed folding.atoms e.start e.stop indent
      (f.breaks page ⟨false, indent⟩ indent) :=
    hl.placed_breaks page hshown (Int.le_of_lt hunit) ⟨false, indent⟩ indent
  have hlay := layable_of_fold hl hlen hfold hplaced
  have hfilled := hl.filled hlen hfolds page ⟨false, indent⟩ indent
  -- the run starts in its one frame, and ends there
  have hstaged : Frame.Staged indent [] [] [⟨false, indent⟩] := ⟨rfl, by simp, by simp⟩
  have hmoments : (Printer.start width unit indent e.start).Always
      (Moment src e width indent folding.placeholders (f.breaks page ⟨false, indent⟩ indent)
        (Unbroken src folding.placeholders (f.breaks page ⟨false, indent⟩ indent)))
      (f.events folding.atoms ++ []) :=
    hfilled.always_moment hlay rfl (Nat.le_refl _) ⟨rfl, rfl, rfl, rfl⟩ hstaged
      (fun hne => absurd rfl hne) fun q hq => Printer.always_nil (hstaged.moment hq (by simp))
  rw [List.append_nil] at hmoments
  refine ⟨_, folding, _, hregions, hfold, hlayOut width unit indent, ?_, fun o c hgroup hopen => ?_⟩
  · rw [htrace]
    refine hmoments.imp fun q post hmoment => ⟨hmoment.1, fun n rest hpost => ?_⟩
    obtain ⟨o, c, henters, hunbroken⟩ := hmoment.2 n rest hpost
    refine ⟨o, c, henters, fun hfit => henters.keptWhole (hunbroken hfit) hfit hlay hlen hindent
      (fun i hi => ?_) fun p hp => ?_⟩
    · have hbounds := hplaced.bounds i hi
      have hleast := hplaced.indent i hi
      omega
    · have := (placeholders_apart hl hfold).2 p hp
      omega
  · obtain ⟨pre, span, w, n, post, hspan, hevents⟩ := hfilled.exists_enter hlay rfl
      ((mem_regions_iff_groupIn hl).mpr ⟨o, c, hgroup, rfl⟩) hopen
    have hsplit : f.events folding.atoms = (pre ++ [.text span w]) ++ .enter n :: post := by
      rw [List.append_assoc]
      exact hevents
    obtain ⟨q, hrun, -, hnext⟩ := hmoments _ _ hsplit
    obtain ⟨o', c', henters, -⟩ := hnext n post rfl
    -- the printer stands behind the opener of this group and of no other
    have hoffset := Printer.breakOffset_of_run hrun
    obtain rfl : o' = o := by
      have := henters.offset
      omega
    obtain rfl := henters.group.1.unique hgroup.1
    refine ⟨_, n, post, q, ?_, hrun, henters⟩
    rw [htrace]
    exact hsplit

/-- **A group that fits is left whole.** A nested stretch without line feeds is folded with a
placeholder without line feeds, or not folded, and laid out from the column `indent` on. At every
moment of the run the frames are staged, and a group that fits into the space left when it is
entered is left whole. The groups that are entered are those that are shown. -/
theorem fitting_group_left_whole (hline : '\n' ∉ Glyph.text (src.window e)) {placeholder : Text}
    (hplain : level = none ∨ '\n' ∉ placeholder) (width : Int) : ∃ regions folding is,
      src.regions e = .ok regions ∧ fold regions level placeholder = .ok folding ∧
      layOut src e width unit indent folding.atoms = .ok is ∧
      (Printer.start width unit indent e.start).Always
        (Moment src e width indent folding.placeholders is
          (LeftWhole src e width indent folding.placeholders is))
        (src.trace e folding.atoms).events ∧
      ∀ o c, src.GroupIn e o c → isHidden folding.placeholders o = false → ∃ pre n post q,
        (src.trace e folding.atoms).events = pre ++ .enter n :: post ∧
        (Printer.start width unit indent e.start).run pre = .ok q ∧
        Enters src e width indent folding.placeholders is q n o c := by
  obtain ⟨regions, folding, is, hregions, hfold, hlayOut, hmoments, hentered⟩ :=
    exists_layOut_moments he hlen hlevel hunit hindent placeholder width
  refine ⟨regions, folding, is, hregions, hfold, hlayOut, ?_, hentered⟩
  refine hmoments.imp fun q post hmoment => ⟨hmoment.1, fun n rest hpost => ?_⟩
  obtain ⟨o, c, henters, hkept⟩ := hmoment.2 n rest hpost
  obtain ⟨-, hstart, hstop⟩ := henters.group
  have hhidden := lineFeed_notMem_of_fold hfold hplain
  exact ⟨o, c, henters, fun hfit => ⟨hkept hfit,
    Source.lineFeed_notMem_shownText hline hhidden (by omega) (by omega)⟩⟩

end Layout

/-- A group that just fits, in a broken group and around a hidden one. -/
theorem fitting_group_left_whole_quoted :
    let src := Source.ofText "'p<s<i>, m<k, (a)>>'".toList
    src.Balanced 1 19 ∧ ∃ regions folding is,
      src.regions ⟨1, 19⟩ = .ok regions ∧ fold regions (some 3) "...".toList = .ok folding ∧
      layOut src ⟨1, 19⟩ 17 2 4 folding.atoms = .ok is ∧
      is = [⟨3, 6⟩, ⟨9, 6⟩] ∧ folding.placeholders = [⟨⟨15, 16⟩, "...".toList⟩] ∧
      LeftWhole src ⟨1, 19⟩ 17 4 folding.placeholders is 10 17 := by
  intro src
  have he : src.Balanced 1 19 := ⟨by decide, nested_iff_openAfter.mpr (by decide +kernel)⟩
  obtain ⟨regions, folding, is, hregions, hfold, hlayOut, hmoments, hentered⟩ :=
    @fitting_group_left_whole src ⟨1, 19⟩ he (by decide +kernel) (some 3) (by simp) 2 4 (by decide)
      (by decide) (by decide +kernel) "...".toList (Or.inr (by decide)) 17
  have hvalue : (do
      let regions ← src.regions ⟨1, 19⟩
      let folding ← fold regions (some 3) "...".toList
      let is ← layOut src ⟨1, 19⟩ 17 2 4 folding.atoms
      .ok (is, folding.placeholders)) =
        (.ok ([⟨3, 6⟩, ⟨9, 6⟩], [⟨⟨15, 16⟩, "...".toList⟩]) : Except Fault _) := by decide +kernel
  simp only [hregions, hfold, hlayOut, bind, Except.bind, Except.ok.injEq, Prod.mk.injEq] at hvalue
  obtain ⟨his, hhidden⟩ := hvalue
  have hgroup : src.GroupIn ⟨1, 19⟩ 10 17 :=
    ⟨⟨.angle, ⟨'<', .opener .angle⟩, ⟨'>', .closer .angle⟩, by decide +kernel, rfl,
      by decide +kernel, rfl, by decide, nested_iff_openAfter.mpr (by decide +kernel)⟩,
      by decide, by decide⟩
  have hshown : isHidden folding.placeholders 10 = false := by
    rw [hhidden]
    decide
  obtain ⟨pre, n, post, q, hevents, hrun, henters⟩ := hentered 10 17 hgroup hshown
  obtain ⟨q', hrun', -, hnext⟩ := hmoments pre _ hevents
  obtain rfl : q' = q := Except.ok.inj (hrun'.symm.trans hrun)
  obtain ⟨o, c, henters', hleft⟩ := hnext n post rfl
  obtain rfl : o = 10 := by
    have h1 := henters.offset
    have h2 := henters'.offset
    omega
  obtain rfl := henters'.group.1.unique hgroup.1
  have hfit : n ≤ q'.space := by
    rw [henters.length, henters.space, hhidden, his]
    decide +kernel
  exact ⟨he, regions, folding, is, hregions, hfold, hlayOut, his, hhidden, hleft hfit⟩

/-- **A placeholder with a line feed parts the brackets.** The group fits with much to spare, and no
line is broken; but its closer is not on the line of its opener. -/
theorem placeholder_with_line_feed_parts_brackets :
    let src := Source.ofText "a<b>".toList
    ∃ regions folding q, src.regions ⟨0, 4⟩ = .ok regions ∧
      fold regions (some 1) ['\n'] = .ok folding ∧
      layOut src ⟨0, 4⟩ 100 2 0 folding.atoms = .ok [] ∧
      (src.trace ⟨0, 4⟩ folding.atoms).events.take 3 =
        [.text ⟨0, 1⟩ 1, .text ⟨1, 2⟩ 1, .enter 2] ∧
      (Printer.start 100 2 0 0).run [.text ⟨0, 1⟩ 1, .text ⟨1, 2⟩ 1] = .ok q ∧
      Enters src ⟨0, 4⟩ 100 0 folding.placeholders [] q 2 1 3 ∧ (2 : Int) ≤ q.space ∧
      overlay src.text [] folding.placeholders = "a<\n>".toList := by
  intro src
  have he : src.Balanced 0 4 := ⟨by decide, nested_iff_openAfter.mpr (by decide +kernel)⟩
  obtain ⟨regions, folding, is, hregions, hfold, -⟩ :=
    @exists_layOut_moments src ⟨0, 4⟩ he (by decide +kernel) (some 1) (by simp) 2 0 (by decide)
      (by decide) ['\n'] 100
  have hgroup : src.GroupIn ⟨0, 4⟩ 1 3 :=
    ⟨⟨.angle, ⟨'<', .opener .angle⟩, ⟨'>', .closer .angle⟩, by decide +kernel, rfl,
      by decide +kernel, rfl, by decide, nested_iff_openAfter.mpr (by decide +kernel)⟩,
      by decide, by decide⟩
  have hevents := eq_of_fold_map (a := [.text ⟨0, 1⟩ 1, .text ⟨1, 2⟩ 1, .enter 2])
    (fun f => (src.trace ⟨0, 4⟩ f.atoms).events.take 3) hregions hfold (by decide +kernel)
  have hview := eq_of_fold_map (a := (.ok [], false, 2, 98, "a<\n>".toList))
    (fun f => (layOut src ⟨0, 4⟩ 100 2 0 f.atoms, isHidden f.placeholders 1,
      src.visibleLength f.placeholders 2 4, 100 - penColumn src.text [] f.placeholders 0 0 2,
      overlay src.text [] f.placeholders))
    hregions hfold (by decide +kernel)
  simp only [Prod.mk.injEq] at hview
  obtain ⟨hlayOut, hopen, hlength, hspace, hoverlay⟩ := hview
  exact ⟨regions, folding, _, hregions, hfold, hlayOut, hevents, rfl,
    ⟨hgroup, hopen, rfl, hlength.symm, hspace.symm⟩, by decide, hoverlay⟩

end DiagLayout
