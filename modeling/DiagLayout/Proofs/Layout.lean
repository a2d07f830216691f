import DiagLayout.Printer
import DiagLayout.Proofs.Events

/-!
# Laying out a nested stretch

* `Forest.breaks`: the lines broken in a forest, by recursion on the forest and the column it starts
  in; `Printer.exists_writes`: they are what the printer makes of the events of the forest.
* `Forest.breakPoints`: the break points are behind separators and openers that are not hidden. They
  increase and are clear of what is hidden (`Laid.clear_breakPoints`).
* `exists_layOut`: a nested stretch less deep than the level of a fold is laid out, and the
  instructions are `Placed`.
-/

namespace DiagLayout

/-! ### Where lines may be broken -/

namespace Forest

/-- The positions where the layout of a forest may break a line. -/
def breakPoints (atoms : List Atom) : Forest Token → List Nat
  | nil => []
  | item t rest => (if t.kind = .separator then [t.stop] else []) ++ rest.breakPoints atoms
  | group o inner _ rest =>
    o.stop :: ((match Atom.startingAt atoms o.stop with
      | some _ => []
      | none => inner.breakPoints atoms) ++ rest.breakPoints atoms)

theorem mem_breakPoints_item {atoms : List Atom} {t : Token} {rest : Forest Token} {x : Nat} :
    x ∈ (item t rest).breakPoints atoms ↔
      t.kind = .separator ∧ x = t.stop ∨ x ∈ rest.breakPoints atoms := by
  rw [breakPoints]
  split_ifs with h <;> simp [h]

theorem mem_breakPoints_group {atoms : List Atom} {o c : Token} {inner rest : Forest Token}
    {x : Nat} : x ∈ (group o inner c rest).breakPoints atoms ↔ x = o.stop ∨
      (Atom.startingAt atoms o.stop = none ∧ x ∈ inner.breakPoints atoms) ∨
        x ∈ rest.breakPoints atoms := by
  rw [breakPoints]
  split <;> simp_all

end Forest

section BreakPoints

variable {src : Source} {i j : Nat} {f : Forest Token} {atoms : List Atom}

theorem Laid.breakPoint_bounds (h : Laid src i f j) : ∀ {x : Nat}, x ∈ f.breakPoints atoms →
    i < x ∧ x ≤ j := by
  induction h with
  | nil => intro x hx; simp [Forest.breakPoints] at hx
  | item ht _ hr ih =>
    intro x hx
    obtain ⟨hs, hlt, hle⟩ := Laid.item_bounds ht hr
    rcases Forest.mem_breakPoints_item.mp hx with ⟨-, rfl⟩ | hx
    · exact ⟨hlt, hle⟩
    · have := ih hx; omega
  | group ho hob hi hc _ hr ihi ihr =>
    intro x hx
    obtain ⟨hos, hostop, hile, hlt, hrle⟩ := Laid.group_bounds ho hob hi hc hr
    rcases Forest.mem_breakPoints_group.mp hx with rfl | ⟨-, hx⟩ | hx
    · omega
    · have := ihi hx; omega
    · have := ihr hx; omega

theorem Laid.pairwise_breakPoints (h : Laid src i f j) :
    (f.breakPoints atoms).Pairwise (· < ·) := by
  induction h with
  | nil => exact List.Pairwise.nil
  | item ht _ hr ih =>
    rw [Forest.breakPoints]
    refine List.pairwise_append.mpr ⟨by split_ifs <;> simp, ih, fun x hx y hy => ?_⟩
    have := hr.breakPoint_bounds hy
    split_ifs at hx
    · rw [List.mem_singleton.mp hx]; omega
    · simp at hx
  | group ho hob hi hc _ hr ihi ihr =>
    obtain ⟨-, -, hile, hlt, -⟩ := Laid.group_bounds ho hob hi hc hr
    rw [Forest.breakPoints]
    refine List.pairwise_cons.mpr ⟨fun x hx => ?_, ?_⟩
    · rcases List.mem_append.mp hx with hx | hx
      · split at hx
        · simp at hx
        · have := hi.breakPoint_bounds hx; omega
      · have := hr.breakPoint_bounds hx; omega
    · split
      · exact ihr
      · refine List.pairwise_append.mpr ⟨ihi, ihr, fun x hx y hy => ?_⟩
        have h1 := hi.breakPoint_bounds hx
        have h2 := hr.breakPoint_bounds hy
        omega

/-- **The break points are clear of what is hidden.** -/
theorem Laid.clear_breakPoints (h : Laid src i f j) : f.Shown atoms →
    ∀ x ∈ f.breakPoints atoms, Atom.Clear atoms x := by
  induction h with
  | nil => intro _ x hx; cases hx
  | item ht _ _ ih =>
    rintro ⟨hap, hrest⟩ x hx
    rcases Forest.mem_breakPoints_item.mp hx with ⟨-, rfl⟩ | hx
    · exact hap.clear ht.formed.lt_stop (Nat.le_refl _)
    · exact ih hrest x hx
  | group ho _ _ _ _ _ ihi ihr =>
    rintro ⟨hapo, -, hinner, hrest⟩ x hx
    rcases Forest.mem_breakPoints_group.mp hx with rfl | ⟨hnone, hx⟩ | hx
    · exact hapo.clear ho.formed.lt_stop (Nat.le_refl _)
    · exact ihi (hinner hnone) x hx
    · exact ihr hrest x hx

end BreakPoints

/-! ### The layout of a forest -/

namespace Frame

/-- The frame of a group of the given length that is entered with `space` columns left. -/
def enter (top : Frame) (unit space length : Int) : Frame :=
  if length ≤ space ∨ length = 1 then ⟨false, top.indent⟩ else ⟨true, top.indent + unit⟩

/-- The column behind a place where the frame may break the line. -/
def resume (frame : Frame) (col : Int) : Int := if frame.broken then frame.indent else col

/-- The break at such a place. -/
def breakAt (frame : Frame) (x : Nat) : List Instruction :=
  if frame.broken then [⟨x, frame.indent⟩] else []

theorem mem_breakAt {frame : Frame} {x : Nat} {i : Instruction} :
    i ∈ frame.breakAt x ↔ frame.broken = true ∧ i = ⟨x, frame.indent⟩ := by
  unfold breakAt
  split_ifs with h
  · simp [h]
  · simp [h]

theorem breakAt_sublist (frame : Frame) (x : Nat) :
    ((frame.breakAt x).map Instruction.offset).Sublist [(x : Int)] := by
  unfold breakAt
  split_ifs
  · exact List.Sublist.refl _
  · exact List.nil_sublist _

/-- A broken group is indented by one unit more. -/
theorem indent_enter {top : Frame} {unit space length : Int} :
    (top.enter unit space length).indent =
      top.indent + unit * if (top.enter unit space length).broken then 1 else 0 := by
  unfold enter
  by_cases hfit : length ≤ space ∨ length = 1
  · simp [hfit]
  · simp [hfit]

theorem le_indent_enter {top : Frame} {unit space length : Int} (hu : 0 ≤ unit) :
    top.indent ≤ (top.enter unit space length).indent := by
  unfold enter
  split_ifs
  · exact Int.le_refl _
  · simp only
    omega

end Frame

/-- What a layout goes by, besides the forest: what is hidden, the width to stay within, and the
columns that a broken group adds to the indent. -/
structure Page where
  atoms : List Atom
  width : Int
  unit : Int

namespace Page

/-- The frame of the group with the brackets `o` and `c`, whose opener stands in column `col`. -/
def frame (page : Page) (top : Frame) (col : Int) (o c : Token) : Frame :=
  top.enter page.unit (page.width - (col + o.glyphs.length))
    (Atom.columns page.atoms ⟨o.stop, c.start + 1⟩)

/-- The column behind the opener of a group. -/
def inside (page : Page) (top : Frame) (col : Int) (o c : Token) : Int :=
  (page.frame top col o c).resume (col + o.glyphs.length)

/-- The column behind the interior of a group: `past`, unless a text is shown in its place. -/
def behind (page : Page) (o : Token) (col past : Int) : Int :=
  match Atom.startingAt page.atoms o.stop with
  | some a => col + a.width
  | none => past

/-- The lines broken in the interior of a group: `is`, unless it is hidden. -/
def within (page : Page) (o : Token) (is : List Instruction) : List Instruction :=
  match Atom.startingAt page.atoms o.stop with
  | some _ => []
  | none => is

theorem mem_within {page : Page} {o : Token} {is : List Instruction} {i : Instruction} :
    i ∈ page.within o is ↔ Atom.startingAt page.atoms o.stop = none ∧ i ∈ is := by
  unfold within
  split <;> simp_all

end Page

/-- The column behind a token that is no bracket. -/
def Token.past (t : Token) (top : Frame) (col : Int) : Int :=
  if t.kind = .separator then top.resume (col + t.glyphs.length) else col + t.glyphs.length

namespace Forest

/-- The column behind a forest that stands in the frame `top` and starts in column `col`. -/
def column (page : Page) : Forest Token → Frame → Int → Int
  | nil, _, col => col
  | item t rest, top, col => rest.column page top (t.past top col)
  | group o inner c rest, top, col =>
    rest.column page top (page.behind o (page.inside top col o c)
      (inner.column page (page.frame top col o c) (page.inside top col o c)) + c.glyphs.length)

/-- The column behind the interior of a group, or behind the text shown in its place. -/
def pastInterior (page : Page) (top : Frame) (col : Int) (o : Token) (inner : Forest Token)
    (c : Token) : Int :=
  page.behind o (page.inside top col o c)
    (inner.column page (page.frame top col o c) (page.inside top col o c))

/-- **The lines broken in a forest** that stands in the frame `top` and starts in column `col`. -/
def breaks (page : Page) : Forest Token → Frame → Int → List Instruction
  | nil, _, _ => []
  | item t rest, top, col =>
    (if t.kind = .separator then top.breakAt t.stop else []) ++
      rest.breaks page top (t.past top col)
  | group o inner c rest, top, col =>
    (page.frame top col o c).breakAt o.stop ++
      (page.within o (inner.breaks page (page.frame top col o c) (page.inside top col o c)) ++
      rest.breaks page top (pastInterior page top col o inner c + c.glyphs.length))

theorem mem_breaks_item {page : Page} {t : Token} {rest : Forest Token} {top : Frame} {col : Int}
    {i : Instruction} : i ∈ (item t rest).breaks page top col ↔
      t.kind = .separator ∧ i ∈ top.breakAt t.stop ∨ i ∈ rest.breaks page top (t.past top col) := by
  rw [breaks]
  split_ifs with h <;> simp [h]

theorem mem_breaks_group {page : Page} {o c : Token} {inner rest : Forest Token} {top : Frame}
    {col : Int} {i : Instruction} : i ∈ (group o inner c rest).breaks page top col ↔
      i ∈ (page.frame top col o c).breakAt o.stop ∨
      (Atom.startingAt page.atoms o.stop = none ∧
        i ∈ inner.breaks page (page.frame top col o c) (page.inside top col o c)) ∨
      i ∈ rest.breaks page top (pastInterior page top col o inner c + c.glyphs.length) := by
  rw [breaks, List.mem_append, List.mem_append, Page.mem_within]

theorem breaks_sublist (page : Page) (f : Forest Token) : ∀ (top : Frame) (col : Int),
    ((f.breaks page top col).map Instruction.offset).Sublist
      ((f.breakPoints page.atoms).map Int.ofNat) := by
  induction f with
  | nil => intro top col; exact List.Sublist.refl _
  | item t rest ih =>
    intro top col
    unfold breaks breakPoints
    rw [List.map_append, List.map_append]
    refine List.Sublist.append ?_ (ih _ _)
    split_ifs
    · exact top.breakAt_sublist t.stop
    · exact List.Sublist.refl _
  | group o inner c rest ihi ihr =>
    intro top col
    unfold breaks breakPoints
    rw [List.map_append, List.map_cons, ← List.singleton_append, List.map_append, List.map_append]
    refine List.Sublist.append (Frame.breakAt_sublist _ _) (List.Sublist.append ?_ (ihr _ _))
    unfold Page.within
    cases Atom.startingAt page.atoms o.stop with
    | some a => exact List.Sublist.refl _
    | none => exact ihi _ _

theorem le_indent_breaks {page : Page} (hu : 0 ≤ page.unit) (f : Forest Token) :
    ∀ {top : Frame} {col : Int}, ∀ i ∈ f.breaks page top col, top.indent ≤ i.indent := by
  induction f with
  | nil => intro top col i hi; cases hi
  | item t rest ih =>
    intro top col i hi
    rcases mem_breaks_item.mp hi with ⟨-, hi⟩ | hi
    · exact Int.le_of_eq (congrArg Instruction.indent (Frame.mem_breakAt.mp hi).2).symm
    · exact ih i hi
  | group o inner c rest ihi ihr =>
    intro top col i hi
    have hle : top.indent ≤ (page.frame top col o c).indent := Frame.le_indent_enter hu
    rcases mem_breaks_group.mp hi with hi | ⟨-, hi⟩ | hi
    · rw [(Frame.mem_breakAt.mp hi).2]
      exact hle
    · exact Int.le_trans hle (ihi i hi)
    · exact ihr i hi

end Forest

/-! ### The printer on the events of a forest -/

namespace Printer

theorem run_append (p : Printer) (es es' : List Event) :
    p.run (es ++ es') = p.run es >>= fun q => q.run es' := by
  rw [run, List.foldlM_append]; rfl

/-- The printer lays out the page, and stands in column `col` inside the frames. -/
structure Stands (p : Printer) (page : Page) (frames : List Frame) (col : Int) : Prop where
  width_eq : p.width = page.width
  unit_eq : p.unit = page.unit
  frames_eq : p.frames = frames
  space_eq : p.space = page.width - col

/-- The events take `p` to `q`, and the lines `is` are broken on the way. -/
structure Writes (p : Printer) (events : List Event) (is : List Instruction) (q : Printer) :
    Prop where
  run_eq : p.run events = .ok q
  added : q.instructions = p.instructions ++ is

variable {p q r : Printer} {es es' : List Event} {is is' : List Instruction} {page : Page}
  {top : Frame} {below frames : List Frame} {col : Int} {x : Nat}

theorem Writes.trans (h : p.Writes es is q) (h' : q.Writes es' is' r) :
    p.Writes (es ++ es') (is ++ is') r := by
  constructor
  · rw [run_append, h.run_eq]
    exact h'.run_eq
  · rw [h'.added, h.added, List.append_assoc]

theorem writes_nil (p : Printer) : p.Writes [] [] p := ⟨rfl, by simp⟩

theorem exists_writes_text (h : p.Stands page frames col) (span : Span) (width : Int) :
    ∃ q : Printer, p.Writes [.text span width] [] q ∧ q.Stands page frames (col + width) ∧
      q.breakOffset = span.stop := by
  have hspace := h.space_eq
  refine ⟨_, ⟨rfl, by simp⟩, ⟨h.width_eq, h.unit_eq, h.frames_eq, ?_⟩, rfl⟩
  simp only
  omega

/-- A gap breaks the line where the frame is broken. -/
theorem exists_writes_gap (h : p.Stands page (top :: below) col) (hx : p.breakOffset = x) :
    ∃ q : Printer, p.Writes [.gap] (top.breakAt x) q ∧
      q.Stands page (top :: below) (top.resume col) := by
  have hrun : p.run [.gap] = .ok (if top.broken then p.breakLine top.indent else p) := by
    rw [run, List.foldlM_cons, step, h.frames_eq]
    rfl
  unfold Frame.breakAt Frame.resume
  by_cases hb : top.broken
  · rw [if_pos hb] at hrun ⊢
    rw [if_pos hb]
    refine ⟨_, ⟨hrun, ?_⟩, h.width_eq, h.unit_eq, h.frames_eq, ?_⟩
    · rw [← hx]
      rfl
    · rw [← h.width_eq]
      rfl
  · rw [if_neg hb] at hrun ⊢
    rw [if_neg hb]
    exact ⟨p, ⟨hrun, by simp⟩, h⟩

/-- A group is entered in its own frame, which breaks the line unless the group fits. -/
theorem exists_writes_enter (h : p.Stands page (top :: below) col) (hx : p.breakOffset = x)
    (length : Int) : ∃ q : Printer,
      p.Writes [.enter length] ((top.enter page.unit (page.width - col) length).breakAt x) q ∧
      q.Stands page (top.enter page.unit (page.width - col) length :: top :: below)
        ((top.enter page.unit (page.width - col) length).resume col) := by
  have hrun : p.run [.enter length] = .ok (p.enter top length) := by
    rw [run, List.foldlM_cons, step, h.frames_eq]
    rfl
  have hspace := h.space_eq
  unfold Printer.enter at hrun
  unfold Frame.enter Frame.breakAt Frame.resume
  by_cases hfit : length ≤ page.width - col ∨ length = 1
  · rw [hspace, if_pos hfit] at hrun
    simp only [if_pos hfit]
    exact ⟨_, ⟨hrun, by simp⟩, h.width_eq, h.unit_eq, by simp [h.frames_eq], by simp⟩
  · rw [hspace, if_neg hfit] at hrun
    simp only [if_neg hfit, if_true]
    refine ⟨_, ⟨hrun, ?_⟩, h.width_eq, h.unit_eq, ?_, ?_⟩
    · simp only [breakLine, ← hx, h.unit_eq]
    · simp only [breakLine, h.frames_eq, h.unit_eq]
    · simp only [breakLine, h.width_eq, h.unit_eq]

theorem exists_writes_exit {inner : Frame} (h : p.Stands page (inner :: top :: below) col) :
    ∃ q : Printer, p.Writes [.exit] [] q ∧ q.Stands page (top :: below) col := by
  have hrun : p.run [.exit] = .ok { p with frames := top :: below } := by
    rw [run, List.foldlM_cons, step, h.frames_eq]
    rfl
  exact ⟨_, ⟨hrun, by simp⟩, h.width_eq, h.unit_eq, rfl, h.space_eq⟩

/-- **The printer takes the events of a forest**: it breaks the lines of the forest, and stands
behind it in the frames in which it stood before. -/
theorem exists_writes (f : Forest Token) : ∀ {p : Printer} {top : Frame} {below : List Frame}
    {col : Int}, p.Stands page (top :: below) col → ∃ q : Printer,
      p.Writes (f.events page.atoms) (f.breaks page top col) q ∧
      q.Stands page (top :: below) (f.column page top col) := by
  induction f with
  | nil => intro p top below col h; exact ⟨p, writes_nil p, h⟩
  | item t rest ih =>
    intro p top below col h
    obtain ⟨p₁, h₁, hs₁, hx₁⟩ := exists_writes_text h t.extent.span t.glyphs.length
    obtain ⟨p₂, h₂, hs₂⟩ : ∃ p₂ : Printer, p₁.Writes (if t.kind = .separator then [.gap] else [])
        (if t.kind = .separator then top.breakAt t.stop else []) p₂ ∧
          p₂.Stands page (top :: below) (t.past top col) := by
      unfold Token.past
      split_ifs
      · exact exists_writes_gap hs₁ hx₁
      · exact ⟨p₁, writes_nil p₁, hs₁⟩
    obtain ⟨q, h₃, hs₃⟩ := ih hs₂
    exact ⟨q, h₁.trans (h₂.trans h₃), hs₃⟩
  | group o inner c rest ihi ihr =>
    intro p top below col h
    obtain ⟨p₁, h₁, hs₁, hx₁⟩ := exists_writes_text h o.extent.span o.glyphs.length
    obtain ⟨p₂, h₂, hs₂⟩ :=
      exists_writes_enter hs₁ hx₁ (Atom.columns page.atoms ⟨o.stop, c.start + 1⟩)
    -- the interior, or the text shown in its place, in the frame of the group
    obtain ⟨p₃, h₃, hs₃⟩ : ∃ p₃ : Printer, p₂.Writes
        (match Atom.startingAt page.atoms o.stop with
          | some a => [.text a.span a.width]
          | none => inner.events page.atoms)
        (page.within o (inner.breaks page (page.frame top col o c) (page.inside top col o c))) p₃ ∧
        p₃.Stands page (page.frame top col o c :: top :: below)
          (Forest.pastInterior page top col o inner c) := by
      unfold Page.within Forest.pastInterior Page.behind
      cases Atom.startingAt page.atoms o.stop with
      | some a =>
        obtain ⟨p₃, h₃, hs₃, -⟩ := exists_writes_text hs₂ a.span a.width
        exact ⟨p₃, h₃, hs₃⟩
      | none => exact ihi hs₂
    obtain ⟨p₄, h₄, hs₄, -⟩ := exists_writes_text hs₃ c.extent.span c.glyphs.length
    obtain ⟨p₅, h₅, hs₅⟩ := exists_writes_exit hs₄
    obtain ⟨q, h₆, hs₆⟩ := ihr hs₅
    exact ⟨q, h₁.trans (h₂.trans (h₃.trans (h₄.trans (h₅.trans h₆)))), hs₆⟩

end Printer

/-! ### The layout of a stretch -/

/-- **Instructions in their places**: the offsets increase, lie behind `lo` and up to `hi`, are
clear of the atoms, and the lines are indented `least` columns or more. -/
structure Placed (atoms : List Atom) (lo hi least : Int) (is : List Instruction) : Prop where
  increasing : is.Pairwise fun i i' => i.offset < i'.offset
  bounds : ∀ i ∈ is, lo < i.offset ∧ i.offset ≤ hi
  clear : ∀ i ∈ is, Atom.Clear atoms i.offset
  indent : ∀ i ∈ is, least ≤ i.indent

namespace Placed

variable {atoms : List Atom} {lo hi least : Int} {is is' : List Instruction}

theorem nil : Placed atoms lo hi least [] := ⟨.nil, by simp, by simp, by simp⟩

theorem widen {lo' hi' least' : Int} (h : Placed atoms lo hi least is) (hlo : lo' ≤ lo)
    (hhi : hi ≤ hi') (hleast : least' ≤ least) : Placed atoms lo' hi' least' is :=
  ⟨h.increasing, fun i hi => by have := h.bounds i hi; omega, h.clear,
    fun i hi => Int.le_trans hleast (h.indent i hi)⟩

theorem append {mid mid' : Int} (h : Placed atoms lo mid least is)
    (h' : Placed atoms mid' hi least is') (hlo : lo ≤ mid') (hmid : mid ≤ mid') (hhi : mid ≤ hi) :
    Placed atoms lo hi least (is ++ is') := by
  refine ⟨List.pairwise_append.mpr ⟨h.increasing, h'.increasing, fun i hi i' hi' => ?_⟩, ?_, ?_, ?_⟩
  · have h1 := h.bounds i hi
    have h2 := h'.bounds i' hi'
    omega
  all_goals
    intro i hi
    rcases List.mem_append.mp hi with hm | hm
  · have := h.bounds i hm; omega
  · have := h'.bounds i hm; omega
  · exact h.clear i hm
  · exact h'.clear i hm
  · exact h.indent i hm
  · exact h'.indent i hm

theorem cons {i : Instruction} (h : Placed atoms i.offset hi least is) (hlo : lo < i.offset)
    (hhi : i.offset ≤ hi) (hc : Atom.Clear atoms i.offset) (hi' : least ≤ i.indent) :
    Placed atoms lo hi least (i :: is) := by
  have hone : Placed atoms lo i.offset least [i] :=
    ⟨List.pairwise_singleton _ _, by simpa using hlo, by simpa using hc, by simpa using hi'⟩
  exact hone.append h (Int.le_of_lt hlo) (Int.le_refl _) hhi

end Placed

/-- **The layout of a nested stretch** breaks the lines of the forest that covers it. -/
theorem layOut_eq_breaks {src : Source} {e : Extent} {f : Forest Token} (page : Page)
    (hsize : ∀ a ∈ page.atoms, 0 ≤ a.span.length) (hlen : e.stop ≤ src.length)
    (hw : f.word = src.tokens e) (hl : Laid src e.start f e.stop) (hag : f.Agrees page.atoms)
    (indent : Int) : layOut src e page.width page.unit indent page.atoms =
      .ok (f.breaks page ⟨false, indent⟩ indent) := by
  have hstart : (Printer.start page.width page.unit indent e.start).Stands page [⟨false, indent⟩]
      indent := ⟨rfl, rfl, rfl, rfl⟩
  obtain ⟨q, hwrites, hstands⟩ := Printer.exists_writes f hstart
  rw [layOut, trace_eq_of_laid hsize hlen hw hl hag, Printer.print, hwrites.run_eq]
  simp [bind, Except.bind, Printer.finish, hstands.frames_eq, hwrites.added, Printer.start]

theorem Laid.mem_breaks {src : Source} {i j : Nat} {f : Forest Token} (h : Laid src i f j)
    {page : Page} {top : Frame} {col : Int} {ins : Instruction}
    (hm : ins ∈ f.breaks page top col) : ∃ x ∈ f.breakPoints page.atoms, ins.offset = x ∧
      i < x ∧ x ≤ j := by
  obtain ⟨x, hx, he⟩ :=
    List.mem_map.mp ((f.breaks_sublist page top col).subset (List.mem_map_of_mem hm))
  exact ⟨x, hx, he.symm, h.breakPoint_bounds hx⟩

theorem Laid.pairwise_breaks {src : Source} {i j : Nat} {f : Forest Token} (h : Laid src i f j)
    (page : Page) (top : Frame) (col : Int) :
    (f.breaks page top col).Pairwise fun i i' => i.offset < i'.offset := by
  have hpw : ((f.breakPoints page.atoms).map Int.ofNat).Pairwise (· < ·) :=
    List.pairwise_map.mpr (h.pairwise_breakPoints.imp fun hlt => Int.ofNat_lt.mpr hlt)
  exact List.pairwise_map.mp (hpw.sublist (f.breaks_sublist page top col))

theorem Laid.placed_breaks {src : Source} {i j : Nat} {f : Forest Token} (h : Laid src i f j)
    (page : Page) (hshown : f.Shown page.atoms) (hu : 0 ≤ page.unit) (top : Frame) (col : Int) :
    Placed page.atoms i j top.indent (f.breaks page top col) := by
  refine ⟨h.pairwise_breaks page top col, fun ins hi => ?_, fun ins hi => ?_, f.le_indent_breaks hu⟩
  · obtain ⟨x, -, hoff, hx⟩ := h.mem_breaks hi
    omega
  · obtain ⟨x, hx, hoff, -⟩ := h.mem_breaks hi
    rw [hoff]
    exact h.clear_breakPoints hshown x hx

/-- **A nested stretch less deep than the level is laid out.** -/
theorem exists_layOut {src : Source} {base stop : Nat} {level : Option Int} {atoms : List Atom}
    (h : Hides src base stop level atoms) {e : Extent} (he : src.Balanced e.start e.stop)
    (hb : base ≤ e.start) (hj : e.stop ≤ stop) (hlen : stop ≤ src.length)
    (hd : ∀ n ∈ level, src.depthFrom base e.start < n) {width unit indent : Int} (hu : 0 ≤ unit) :
    ∃ is, layOut src e width unit indent atoms = .ok is ∧
      Placed atoms e.start e.stop indent is := by
  have hstop : e.stop ≤ src.length := Nat.le_trans hj hlen
  obtain ⟨f, hw, hl⟩ := exists_laid he hstop
  have hsize : ∀ a ∈ atoms, 0 ≤ a.span.length := fun a ha => Int.le_of_lt (h.span_length_pos ha)
  let page : Page := ⟨atoms, width, unit⟩
  have hlayOut := layOut_eq_breaks page hsize hstop hw hl (h.agrees hl hb hj hd) indent
  exact ⟨_, hlayOut, hl.placed_breaks page (h.shown hl hb hj hd) hu ⟨false, indent⟩ indent⟩

end DiagLayout
