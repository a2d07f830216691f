import DiagLayout.Proofs.FillInvariant
import Mathlib.Data.Set.Card

/-!
# The fill rule

`FillRule` says by positions alone where a layout breaks the lines: behind the opener of a group
that does not fit into the columns left, behind the separators of such a group, and nowhere else;
and each line is indented by one unit for each broken group around it.

Each part of the rule is read off the invariant of the layout by induction on the forest:
`Filled.opener_rule`, `Filled.separator_rule`, `Filled.only_rule` and `Filled.indent_rule`. The
groups around a position are there the regions of the forest; `mem_regions_iff_groupIn` turns them
into positions.

By the column of the pen the rule holds with every placeholder (`exists_layOut_fillRule`). This is
the column of the rendered text as long as no placeholder starts a new line, which makes the main
result `layout_follows_fill_rule`; and else it is not (`placeholder_with_line_feed_misleads`).
-/

namespace DiagLayout

/-! ### The rule -/

/-- A group of the stretch, by the positions of its brackets. -/
def Source.GroupIn (src : Source) (e : Extent) (p q : Nat) : Prop :=
  src.GroupAt p q ∧ e.start ≤ p ∧ q < e.stop

/-- The innermost group of the stretch around the position `x`. -/
def Source.InnermostIn (src : Source) (e : Extent) (x p q : Nat) : Prop :=
  src.GroupIn e p q ∧ p < x ∧ x < q ∧
    ∀ p' q', src.GroupIn e p' q' → p' < x → x < q' → p' ≤ p

/-- **The fill rule.** The instructions break the lines of the stretch, rendered from column
`indent` on, where it has to be broken to stay within the width. -/
structure FillRule (src : Source) (e : Extent) (width unit indent : Int)
    (hidden : List Placeholder) (is : List Instruction) : Prop where
  /-- A group is broken iff it has more than its closer and exceeds the columns left. -/
  opener : ∀ p q, src.GroupIn e p q → isHidden hidden p = false →
    (BrokenAt is (p + 1) ↔ src.visibleLength hidden (p + 1) (q + 1) ≠ 1 ∧
      width - penColumn src.text is hidden indent e.start (p + 1) <
        src.visibleLength hidden (p + 1) (q + 1))
  /-- A line is broken behind a separator iff the innermost group around it is broken. -/
  separator : ∀ t ∈ src.tokens e, t.kind = .separator → isHidden hidden t.start = false →
    (BrokenAt is t.stop ↔ ∃ p q, src.InnermostIn e t.start p q ∧ BrokenAt is (p + 1))
  /-- No line is broken elsewhere. -/
  only : ∀ i ∈ is, (∃ p q, src.GroupIn e p q ∧ isHidden hidden p = false ∧ i.offset = p + 1) ∨
    ∃ t ∈ src.tokens e, t.kind = .separator ∧ isHidden hidden t.start = false ∧ i.offset = t.stop
  /-- No line is broken twice at one place. -/
  increasing : is.Pairwise fun i i' => i.offset < i'.offset
  /-- A line is indented by one unit for each broken group around it. -/
  indented : ∀ i ∈ is, i.indent = indent + unit * Set.ncard {p : Nat | ∃ q, src.GroupIn e p q ∧
    (p : Int) < i.offset ∧ i.offset ≤ q ∧ BrokenAt is (p + 1)}

/-! ### Regions around a position -/

/-- The position lies in the region. -/
def Region.Holds (r : Region) (x : Int) : Prop := r.start ≤ x ∧ x < r.stop

/-- The innermost of the regions around the position is broken; without one, `out` answers. -/
def InnermostBroken (is : List Instruction) (rs : List Region) (out : Prop) (x : Int) : Prop :=
  (∃ r ∈ rs, r.Holds x ∧ (∀ r' ∈ rs, r'.Holds x → r'.start ≤ r.start) ∧ BrokenAt is r.start) ∨
    (∀ r ∈ rs, ¬ r.Holds x) ∧ out

/-- The number of broken regions around a line that starts at the offset. -/
def brokenAround (is : List Instruction) (rs : List Region) (x : Int) : Nat :=
  rs.countP fun r => decide (r.start ≤ x ∧ x ≤ r.stop ∧ BrokenAt is r.start)

/-- The openers of these regions. -/
def brokenOpeners (is : List Instruction) (rs : List Region) (x : Int) : List Nat :=
  (rs.filter fun r => decide (r.start ≤ x ∧ x ≤ r.stop ∧ BrokenAt is r.start)).map
    fun r => (r.start - 1).toNat

section Around

variable {is : List Instruction} {rs rs' : List Region} {out : Prop} {x : Int}

theorem innermostBroken_of_forall_not (h : ∀ r ∈ rs, ¬ r.Holds x) :
    InnermostBroken is rs out x ↔ out := by
  constructor
  · rintro (⟨r, hr, hholds, -⟩ | ⟨-, hout⟩)
    · exact absurd hholds (h r hr)
    · exact hout
  · exact fun hout => Or.inr ⟨h, hout⟩

/-- Only the regions around the position count. -/
theorem innermostBroken_congr (h : ∀ r : Region, r.Holds x → (r ∈ rs ↔ r ∈ rs')) :
    InnermostBroken is rs out x ↔ InnermostBroken is rs' out x := by
  unfold InnermostBroken
  refine or_congr (exists_congr fun r => ?_) (and_congr_left' (forall_congr' fun r => ?_))
  · have hmax : (∀ r' ∈ rs, r'.Holds x → r'.start ≤ r.start) ↔
        ∀ r' ∈ rs', r'.Holds x → r'.start ≤ r.start :=
      forall_congr' fun r' => by
        constructor
        · exact fun hr' hmem hx => hr' ((h r' hx).mpr hmem) hx
        · exact fun hr' hmem hx => hr' ((h r' hx).mp hmem) hx
    rw [hmax]
    constructor
    · exact fun ⟨hmem, hx, hrest⟩ => ⟨(h r hx).mp hmem, hx, hrest⟩
    · exact fun ⟨hmem, hx, hrest⟩ => ⟨(h r hx).mpr hmem, hx, hrest⟩
  · constructor
    · exact fun hr hmem hx => hr ((h r hx).mpr hmem) hx
    · exact fun hr hmem hx => hr ((h r hx).mp hmem) hx

/-- The outermost region answers where no other is around the position. -/
theorem innermostBroken_cons {r : Region} (hx : r.Holds x) (h : ∀ r' ∈ rs, r.start < r'.start) :
    InnermostBroken is (r :: rs) out x ↔ InnermostBroken is rs (BrokenAt is r.start) x := by
  constructor
  · rintro (⟨r', hmem, hholds, hmax, hbroken⟩ | ⟨hnone, -⟩)
    · rcases List.mem_cons.mp hmem with rfl | hmem
      · refine Or.inr ⟨fun r hr hholds => ?_, hbroken⟩
        have h1 := h r hr
        have h2 := hmax r (List.mem_cons_of_mem _ hr) hholds
        omega
      · exact Or.inl ⟨r', hmem, hholds, fun r hr => hmax r (List.mem_cons_of_mem _ hr), hbroken⟩
    · exact absurd hx (hnone r List.mem_cons_self)
  · rintro (⟨r', hmem, hholds, hmax, hbroken⟩ | ⟨hnone, hbroken⟩)
    · refine Or.inl ⟨r', List.mem_cons_of_mem _ hmem, hholds, fun r'' hr'' hx'' => ?_, hbroken⟩
      rcases List.mem_cons.mp hr'' with rfl | hr''
      · exact Int.le_of_lt (h r' hmem)
      · exact hmax r'' hr'' hx''
    · refine Or.inl ⟨r, List.mem_cons_self, hx, fun r' hr' hx' => ?_, hbroken⟩
      rcases List.mem_cons.mp hr' with rfl | hr'
      · exact Int.le_refl _
      · exact absurd hx' (hnone r' hr')

theorem brokenAround_cons {r : Region} : brokenAround is (r :: rs) x =
    (if r.start ≤ x ∧ x ≤ r.stop ∧ BrokenAt is r.start then 1 else 0) + brokenAround is rs x := by
  rw [Nat.add_comm]
  simp only [brokenAround, List.countP_cons, decide_eq_true_eq]

theorem brokenAround_append : brokenAround is (rs ++ rs') x =
    brokenAround is rs x + brokenAround is rs' x := List.countP_append

theorem brokenAround_eq_zero (h : ∀ r ∈ rs, x < r.start ∨ r.stop < x) :
    brokenAround is rs x = 0 := by
  refine List.countP_eq_zero.mpr fun r hr => ?_
  have := h r hr
  rw [decide_eq_true_eq]
  omega

theorem length_brokenOpeners : (brokenOpeners is rs x).length = brokenAround is rs x := by
  rw [brokenOpeners, List.length_map, brokenAround, List.countP_eq_length_filter]

end Around

/-! ### The rule on a forest -/

namespace Filled

variable {src : Source} {hidden : List Placeholder} {is : List Instruction} {page : Page}
  {start : Nat} {indent : Int} {i j : Nat} {top : Frame} {col : Int}

section Group

variable {o c : Token} {inner rest : Forest Token}
  (h : Filled src hidden is page start indent i (.group o inner c rest) j top col)
include h

/-- In the interior of a group its own region is the outermost, and those behind it do not count. -/
theorem innermostBroken_interior {d : Int} {out : Prop} {x : Nat} (ho : o.stop ≤ x)
    (hc : x < c.start) :
    InnermostBroken is ((Forest.group o inner c rest).regions d) out x ↔
      InnermostBroken is (inner.regions (d + 1)) (BrokenAt is o.stop) x := by
  cases h.laid with
  | group hat hob hin hcat hcb hr =>
    obtain ⟨hos, hostop, hile, hlt, hrle⟩ := Laid.group_bounds hat hob hin hcat hr
    have hsame : ∀ r : Region, r.Holds x → (r ∈ (Forest.group o inner c rest).regions d ↔
        r ∈ (⟨o.stop, c.start, d + 1⟩ : Region) :: inner.regions (d + 1)) := by
      intro r hholds
      have hout : r ∉ rest.regions d := fun hmem => by
        have := hr.region_bounds hmem
        have := hholds.1
        omega
      simp only [Forest.regions, List.mem_cons, List.mem_append, hout, or_false, hostop,
        Nat.cast_add, Nat.cast_one]
    rw [innermostBroken_congr hsame]
    exact innermostBroken_cons ⟨Int.ofNat_le.mpr ho, Int.ofNat_lt.mpr hc⟩
      fun r hmem => (hin.region_bounds hmem).1

/-- Behind the interior of a group its regions do not count. -/
theorem innermostBroken_behind {d : Int} {out : Prop} {x : Nat} (hc : c.start ≤ x) :
    InnermostBroken is ((Forest.group o inner c rest).regions d) out x ↔
      InnermostBroken is (rest.regions d) out x := by
  refine innermostBroken_congr fun r hholds => ?_
  have hx := hholds.2
  cases h.laid with
  | group hat hob hin hcat hcb hr =>
    have hhead : r ≠ ⟨(o.start : Int) + 1, c.start, d + 1⟩ := by
      rintro rfl
      simp only at hx
      omega
    have hout : r ∉ inner.regions (d + 1) := fun hmem => by
      have := hin.region_bounds hmem
      omega
    simp only [Forest.regions, List.mem_cons, List.mem_append, hout, hhead, false_or]

/-- From the opener of a group on its own region counts if it is broken. -/
theorem brokenAround_interior {d x : Int} (ho : (o.stop : Int) ≤ x) (hc : x ≤ c.start) :
    brokenAround is ((Forest.group o inner c rest).regions d) x =
      (if (page.frame top col o c).broken then 1 else 0) +
        brokenAround is (inner.regions (d + 1)) x := by
  cases h.laid with
  | group hat hob hin hcat hcb hr =>
    obtain ⟨hos, hostop, hile, hlt, hrle⟩ := Laid.group_bounds hat hob hin hcat hr
    have hbehind : brokenAround is (rest.regions d) x = 0 :=
      brokenAround_eq_zero fun r hmem => by
        have := hr.region_bounds hmem
        omega
    have hbroken : ((o.start : Int) + 1 ≤ x ∧ x ≤ c.start ∧ BrokenAt is ((o.start : Int) + 1)) ↔
        (page.frame top col o c).broken = true := by
      rw [← h.brokenAt_opener, hostop, Nat.cast_add, Nat.cast_one]
      exact ⟨fun hx => hx.2.2, fun hx => ⟨by omega, hc, hx⟩⟩
    rw [Forest.regions, brokenAround_cons, brokenAround_append, hbehind, Nat.add_zero]
    simp only [hbroken]

/-- Behind the interior of a group its regions do not count. -/
theorem brokenAround_behind {d x : Int} (hc : (c.start : Int) < x) :
    brokenAround is ((Forest.group o inner c rest).regions d) x =
      brokenAround is (rest.regions d) x := by
  cases h.laid with
  | group hat hob hin hcat hcb hr =>
    have hinner : brokenAround is (inner.regions (d + 1)) x = 0 :=
      brokenAround_eq_zero fun r hmem => by
        have := hin.region_bounds hmem
        omega
    rw [Forest.regions, brokenAround_cons, brokenAround_append, hinner,
      if_neg fun hx => by have := hx.2.1; simp only at this; omega, Nat.zero_add, Nat.zero_add]

end Group

variable (hlay : Layable src.length is hidden) (hatoms : page.atoms = hidden.map Placeholder.atom)
include hlay hatoms

/-- **The rule for openers.** -/
theorem opener_rule {f : Forest Token}
    (h : Filled src hidden is page start indent i f j top col) : ∀ {d d' : Int} {p q : Nat},
      (⟨(p : Int) + 1, q, d'⟩ : Region) ∈ f.regions d → isHidden hidden p = false →
      (BrokenAt is (p + 1) ↔ src.visibleLength hidden (p + 1) (q + 1) ≠ 1 ∧
        page.width - penColumn src.text is hidden indent start (p + 1) <
          src.visibleLength hidden (p + 1) (q + 1)) := by
  induction f generalizing i j top col with
  | nil => intro d d' p q hmem; cases hmem
  | item t rest ih => intro d d' p q hmem; exact ih (h.item hlay) hmem
  | group o inner c rest ihi ihr =>
    intro d d' p q hmem hshown
    simp only [Forest.regions, List.mem_cons, List.mem_append] at hmem
    rcases hmem with hmem | hmem | hmem
    · have hbroken := (h.brokenAt_opener).trans (h.broken_iff hlay hatoms)
      cases h.laid with
      | group ho hob hin hc hcb hr =>
        have hostop := ho.formed.stop_opener hob
        simp only [Region.mk.injEq] at hmem
        obtain rfl : p = o.start := by omega
        obtain rfl : q = c.start := by omega
        rw [hostop] at hbroken
        exact hbroken
    · cases hat : placeholderAt hidden o.stop with
      | none => exact ihi (h.interior hlay hatoms hat) hmem hshown
      | some ph =>
        cases h.laid with
        | group ho hob hin hc hcb hr =>
          have hb := hin.region_bounds hmem
          simp only at hb
          rw [h.isHidden_interior hat (by omega) (by omega)] at hshown
          cases hshown
    · exact ihr (h.behind hlay hatoms) hmem hshown

/-- **No other rule**: a line is broken behind an opener or behind a separator that is shown. -/
theorem only_rule {f : Forest Token}
    (h : Filled src hidden is page start indent i f j top col) (d : Int) :
    ∀ ins ∈ f.breaks page top col,
      (∃ (p q : Nat) (d' : Int), (⟨(p : Int) + 1, q, d'⟩ : Region) ∈ f.regions d ∧
        isHidden hidden p = false ∧ ins.offset = p + 1) ∨
      ∃ t ∈ f.word, t.kind = .separator ∧ isHidden hidden t.start = false ∧
        ins.offset = t.stop := by
  induction f generalizing i j top col d with
  | nil => intro ins hins; cases hins
  | item t rest ih =>
    intro ins hins
    obtain ⟨hap, -⟩ := h.folds
    rcases Forest.mem_breaks_item.mp hins with ⟨hk, hins⟩ | hins
    · right
      cases h.laid with
      | item ht hb hr =>
        refine ⟨t, List.mem_cons_self, hk, ?_, ?_⟩
        · exact isHidden_eq_false hap (Nat.le_refl _) ht.formed.lt_stop
        · rw [(Frame.mem_breakAt.mp hins).2]
    · rcases ih (h.item hlay) d ins hins with hopener | ⟨t', ht', hrest⟩
      · exact Or.inl hopener
      · exact Or.inr ⟨t', List.mem_cons_of_mem _ ht', hrest⟩
  | group o inner c rest ihi ihr =>
    intro ins hins
    obtain ⟨hapo, -⟩ := h.folds
    rcases Forest.mem_breaks_group.mp hins with hins | ⟨hnone, hins⟩ | hins
    · left
      cases h.laid with
      | group ho hob hin hc hcb hr =>
        refine ⟨o.start, c.start, d + 1, List.mem_cons_self, ?_, ?_⟩
        · exact isHidden_eq_false hapo (Nat.le_refl _) ho.formed.lt_stop
        · rw [(Frame.mem_breakAt.mp hins).2, ho.formed.stop_opener hob]
          simp
    · have hinterior := h.interior hlay hatoms ((startingAt_page_eq_none hatoms).mp hnone)
      rcases ihi hinterior (d + 1) ins hins with ⟨p, q, d', hmem, hp⟩ | ⟨t, ht, hp⟩
      · exact Or.inl ⟨p, q, d', by simp [Forest.regions, hmem], hp⟩
      · exact Or.inr ⟨t, by simp [Forest.word, ht], hp⟩
    · rcases ihr (h.behind hlay hatoms) d ins hins with ⟨p, q, d', hmem, hp⟩ | ⟨t, ht, hp⟩
      · exact Or.inl ⟨p, q, d', by simp [Forest.regions, hmem], hp⟩
      · exact Or.inr ⟨t, by simp [Forest.word, ht], hp⟩

/-- **The rule for separators.** -/
theorem separator_rule {f : Forest Token}
    (h : Filled src hidden is page start indent i f j top col) : ∀ {d : Int} {t : Token},
      t ∈ f.word → t.kind = .separator → isHidden hidden t.start = false →
      (BrokenAt is t.stop ↔ InnermostBroken is (f.regions d) (top.broken = true) t.start) := by
  induction f generalizing i j top col with
  | nil => intro d t hmem; cases hmem
  | item t' rest ih =>
    intro d t hmem hk hshown
    rcases List.mem_cons.mp hmem with rfl | hmem
    · have htoken := h.settled_token
      cases h.laid with
      | item ht hb hr =>
        obtain ⟨hs, hlt, hle⟩ := Laid.item_bounds ht hr
        rw [innermostBroken_of_forall_not fun r hmem hholds => by
          have := hr.region_bounds hmem
          have := hholds.1
          omega]
        constructor
        · rintro ⟨ins, hins, hx⟩
          exact (Frame.mem_breakAt.mp ((htoken ins (by omega) (by omega)).mp hins).2).1
        · intro hb
          refine ⟨⟨t.stop, top.indent⟩, ?_, rfl⟩
          exact (htoken _ (by simp only; omega) (Int.le_refl _)).mpr
            ⟨hk, Frame.mem_breakAt.mpr ⟨hb, rfl⟩⟩
    · exact ih (h.item hlay) hmem hk hshown
  | group o inner c rest ihi ihr =>
    intro d t hmem hk hshown
    cases h.laid with
    | group ho hob hin hc hcb hr =>
      obtain ⟨hos, hostop, hile, hlt, hrle⟩ := Laid.group_bounds ho hob hin hc hr
      simp only [Forest.word, List.mem_cons, List.mem_append] at hmem
      rcases hmem with rfl | hmem | rfl | hmem
      · rw [ho.formed.kind_opener hob] at hk
        cases hk
      · have h1 := hin.le_start t hmem
        have h2 := hin.start_lt t hmem
        cases hat : placeholderAt hidden o.stop with
        | some p =>
          rw [h.isHidden_interior hat h1 h2] at hshown
          cases hshown
        | none =>
          rw [h.innermostBroken_interior h1 h2, h.brokenAt_opener]
          exact ihi (h.interior hlay hatoms hat) hmem hk hshown
      · rw [hc.formed.kind_closer hcb] at hk
        cases hk
      · have h1 := hr.le_start t hmem
        rw [h.innermostBroken_behind (by omega)]
        exact ihr (h.behind hlay hatoms) hmem hk hshown

/-- **The rule for indents.** -/
theorem indent_rule {f : Forest Token}
    (h : Filled src hidden is page start indent i f j top col) : ∀ {d : Int} {ins : Instruction},
      ins ∈ f.breaks page top col →
      ins.indent = top.indent + page.unit * brokenAround is (f.regions d) ins.offset := by
  induction f generalizing i j top col with
  | nil => intro d ins hins; cases hins
  | item t rest ih =>
    intro d ins hins
    rcases Forest.mem_breaks_item.mp hins with ⟨-, hins⟩ | hins
    · obtain ⟨-, rfl⟩ := Frame.mem_breakAt.mp hins
      cases h.laid with
      | item ht hb hr =>
        have hzero : brokenAround is (rest.regions d) t.stop = 0 :=
          brokenAround_eq_zero fun r hmem => Or.inl (hr.region_bounds hmem).1
        simp only [Forest.regions, hzero]
        omega
    · exact ih (h.item hlay) hins
  | group o inner c rest ihi ihr =>
    intro d ins hins
    have hframe : (page.frame top col o c).indent = top.indent +
        page.unit * if (page.frame top col o c).broken then 1 else 0 := Frame.indent_enter
    cases h.laid with
    | group hat hob hin hc hcb hr =>
      obtain ⟨hos, hostop, hile, hlt, hrle⟩ := Laid.group_bounds hat hob hin hc hr
      rcases Forest.mem_breaks_group.mp hins with hins | ⟨hnone, hins⟩ | hins
      · obtain ⟨-, rfl⟩ := Frame.mem_breakAt.mp hins
        have hzero : brokenAround is (inner.regions (d + 1)) o.stop = 0 :=
          brokenAround_eq_zero fun r hmem => Or.inl (hin.region_bounds hmem).1
        rw [h.brokenAround_interior (Int.le_refl _) (Int.ofNat_le.mpr hile), hzero, hframe]
        simp
      · have hinterior := h.interior hlay hatoms ((startingAt_page_eq_none hatoms).mp hnone)
        obtain ⟨x, -, hx, h1, h2⟩ := hin.mem_breaks hins
        rw [ihi hinterior (d := d + 1) hins, hframe,
          h.brokenAround_interior (by omega) (by omega)]
        push_cast
        rw [Int.mul_add, Int.add_assoc]
      · obtain ⟨x, -, hx, h1, h2⟩ := hr.mem_breaks hins
        rw [h.brokenAround_behind (by omega)]
        exact ihr (h.behind hlay hatoms) hins

end Filled

/-! ### The rule by positions -/

section Positions

variable {src : Source} {e : Extent} {f : Forest Token} {is : List Instruction}

theorem mem_regions_iff_groupIn (h : Laid src e.start f e.stop) {r : Region} :
    r ∈ f.regions 0 ↔ ∃ p q : Nat, src.GroupIn e p q ∧
      r = ⟨(p : Int) + 1, q, src.depthFrom e.start (p + 1)⟩ := by
  have hiff := h.mem_regions_iff (r := r) (Nat.le_refl _)
  rw [Source.depthFrom_self] at hiff
  rw [hiff]
  unfold Source.GroupIn
  constructor
  · exact fun ⟨p, q, hg, h1, h2, hr⟩ => ⟨p, q, ⟨hg, h1, h2⟩, hr⟩
  · exact fun ⟨p, q, ⟨hg, h1, h2⟩, hr⟩ => ⟨p, q, hg, h1, h2, hr⟩

theorem innermostBroken_iff (h : Laid src e.start f e.stop) {x : Nat} :
    InnermostBroken is (f.regions 0) False x ↔
      ∃ p q, src.InnermostIn e x p q ∧ BrokenAt is (p + 1) := by
  constructor
  · rintro (⟨r, hmem, hholds, hmax, hbroken⟩ | ⟨-, hfalse⟩)
    · obtain ⟨p, q, hg, rfl⟩ := (mem_regions_iff_groupIn h).mp hmem
      obtain ⟨h1, h2⟩ := hholds
      simp only at h1 h2
      refine ⟨p, q, ⟨hg, by omega, by omega, fun p' q' hg' h1' h2' => ?_⟩, hbroken⟩
      have := hmax _ ((mem_regions_iff_groupIn h).mpr ⟨p', q', hg', rfl⟩)
        ⟨by simp only; omega, by simp only; omega⟩
      simp only at this
      omega
    · exact hfalse.elim
  · rintro ⟨p, q, ⟨hg, h1, h2, hmax⟩, hbroken⟩
    refine Or.inl ⟨_, (mem_regions_iff_groupIn h).mpr ⟨p, q, hg, rfl⟩,
      ⟨by simp only; omega, by simp only; omega⟩, fun r' hmem' hholds' => ?_, hbroken⟩
    obtain ⟨p', q', hg', rfl⟩ := (mem_regions_iff_groupIn h).mp hmem'
    obtain ⟨h1', h2'⟩ := hholds'
    simp only at h1' h2' ⊢
    have := hmax p' q' hg' (by omega) (by omega)
    omega

theorem mem_brokenOpeners (h : Laid src e.start f e.stop) {x : Int} {p : Nat} :
    p ∈ brokenOpeners is (f.regions 0) x ↔
      ∃ q, src.GroupIn e p q ∧ (p : Int) < x ∧ x ≤ q ∧ BrokenAt is (p + 1) := by
  simp only [brokenOpeners, List.mem_map, List.mem_filter, decide_eq_true_eq]
  constructor
  · rintro ⟨r, ⟨hmem, h1, h2, hbroken⟩, rfl⟩
    obtain ⟨p, q, hg, rfl⟩ := (mem_regions_iff_groupIn h).mp hmem
    have hp : ((p : Int) + 1 - 1).toNat = p := by omega
    rw [hp]
    exact ⟨q, hg, h1, h2, hbroken⟩
  · rintro ⟨q, hg, h1, h2, hbroken⟩
    have hp : ((p : Int) + 1 - 1).toNat = p := by omega
    exact ⟨_, ⟨(mem_regions_iff_groupIn h).mpr ⟨p, q, hg, rfl⟩, h1, h2, hbroken⟩, hp⟩

theorem nodup_brokenOpeners (h : Laid src e.start f e.stop) {x : Int} :
    (brokenOpeners is (f.regions 0) x).Nodup := by
  refine List.pairwise_map.mpr (List.Pairwise.imp_of_mem ?_ ((h.pairwise_starts 0).filter _))
  intro r r' hr hr' hlt
  have h1 := (h.region_bounds (List.mem_of_mem_filter hr)).1
  have h2 := (h.region_bounds (List.mem_of_mem_filter hr')).1
  omega

/-- Each broken group around a line is counted once. -/
theorem brokenAround_eq_ncard (h : Laid src e.start f e.stop) (x : Int) :
    brokenAround is (f.regions 0) x = Set.ncard {p : Nat | ∃ q, src.GroupIn e p q ∧
      (p : Int) < x ∧ x ≤ q ∧ BrokenAt is (p + 1)} := by
  have hset : {p : Nat | ∃ q, src.GroupIn e p q ∧ (p : Int) < x ∧ x ≤ q ∧ BrokenAt is (p + 1)} =
      ↑(brokenOpeners is (f.regions 0) x).toFinset := by
    ext p
    simp [mem_brokenOpeners h]
  rw [hset, Set.ncard_coe_finset, List.toFinset_card_of_nodup (nodup_brokenOpeners h),
    length_brokenOpeners]

end Positions

/-- **The invariant of the whole stretch gives the rule.** -/
theorem Filled.fillRule {src : Source} {e : Extent} {f : Forest Token} {hidden : List Placeholder}
    {page : Page} {indent : Int} (hw : f.word = src.tokens e)
    (hatoms : page.atoms = hidden.map Placeholder.atom)
    (hlay : Layable src.length (f.breaks page ⟨false, indent⟩ indent) hidden)
    (h : Filled src hidden (f.breaks page ⟨false, indent⟩ indent) page e.start indent e.start f
      e.stop ⟨false, indent⟩ indent) :
    FillRule src e page.width page.unit indent hidden (f.breaks page ⟨false, indent⟩ indent) where
  opener p q hg hshown :=
    h.opener_rule hlay hatoms ((mem_regions_iff_groupIn h.laid).mpr ⟨p, q, hg, rfl⟩) hshown
  separator t ht hk hshown := by
    rw [← hw] at ht
    rw [h.separator_rule hlay hatoms (d := 0) ht hk hshown, Bool.false_eq_true]
    exact innermostBroken_iff h.laid
  only i hi := by
    rw [← hw]
    refine (h.only_rule hlay hatoms 0 i hi).imp_left fun ⟨p, q, d, hmem, hshown, hoff⟩ => ?_
    obtain ⟨p', q', hg, heq⟩ := (mem_regions_iff_groupIn h.laid).mp hmem
    simp only [Region.mk.injEq] at heq
    obtain rfl : p = p' := by omega
    exact ⟨p, q', hg, hshown, hoff⟩
  increasing := hlay.increasing
  indented i hi := by
    rw [h.indent_rule hlay hatoms (d := 0) hi, brokenAround_eq_ncard h.laid]

section Layout

variable {src : Source} {e : Extent} (he : src.Balanced e.start e.stop) (hlen : e.stop ≤ src.length)
  {level : Option Int} (hlevel : ∀ n ∈ level, 1 ≤ n) {unit indent : Int} (hunit : 0 < unit)
  (hindent : 0 ≤ indent)
include he hlen hlevel hunit hindent

/-- **By the column of the pen the rule holds**, whatever the placeholder is, and the pen writes the
overlay. -/
theorem exists_layOut_fillRule (placeholder : Text) (width : Int) : ∃ regions folding is,
    src.regions e = .ok regions ∧ fold regions level placeholder = .ok folding ∧
    layOut src e width unit indent folding.atoms = .ok is ∧
    FillRule src e width unit indent folding.placeholders is ∧ (∀ i ∈ is, 0 ≤ i.indent) ∧
    ∀ x, e.start ≤ x → x ≤ e.stop →
      overlay src.text is folding.placeholders = src.text.take e.start ++
        penText src.text is folding.placeholders e.start x ++
        penText src.text is folding.placeholders x (src.length + 1) := by
  obtain ⟨f, folding, hw, hl, hregions, hfold, hshown, hfolds, hlayOut⟩ :=
    exists_folding he hlen hlevel placeholder
  let page : Page := ⟨folding.atoms, width, unit⟩
  have hplaced : Placed folding.atoms e.start e.stop indent
      (f.breaks page ⟨false, indent⟩ indent) :=
    hl.placed_breaks page hshown (Int.le_of_lt hunit) ⟨false, indent⟩ indent
  have hlay := layable_of_fold hl hlen hfold hplaced
  have hfilled := hl.filled hlen hfolds page ⟨false, indent⟩ indent
  refine ⟨_, folding, _, hregions, hfold, hlayOut width unit indent,
    hfilled.fillRule hw rfl hlay, fun ins hins => ?_, fun x h1 h2 => ?_⟩
  · exact Int.le_trans hindent (hplaced.indent ins hins)
  · have htext : src.text.length = src.length := List.length_map _
    rw [← htext] at hlay ⊢
    refine hlay.overlay_eq_penText (fun ins hins => ?_) (fun p hp => ?_) h1 (by omega)
    · have := hplaced.bounds ins hins
      omega
    · have := (placeholders_apart hl hfold).2 p hp
      omega

/-- **A layout follows the fill rule.** A nested stretch without line feeds is folded with a
placeholder without line feeds, or not folded, and laid out from the column `indent` on. The columns
of the rule are those of the rendered text: what the pen writes is a part of the overlay, and its
column is the column behind what it has written. -/
theorem layout_follows_fill_rule (hline : '\n' ∉ Glyph.text (src.window e)) {placeholder : Text}
    (hplain : level = none ∨ '\n' ∉ placeholder) (width : Int) : ∃ regions folding is,
      src.regions e = .ok regions ∧ fold regions level placeholder = .ok folding ∧
      layOut src e width unit indent folding.atoms = .ok is ∧
      FillRule src e width unit indent folding.placeholders is ∧
      ∀ x, e.start ≤ x → x ≤ e.stop →
        overlay src.text is folding.placeholders = src.text.take e.start ++
          penText src.text is folding.placeholders e.start x ++
          penText src.text is folding.placeholders x (src.length + 1) ∧
        penColumn src.text is folding.placeholders indent e.start x =
          Text.endColumn (List.replicate indent.toNat ' ' ++
            penText src.text is folding.placeholders e.start x) := by
  obtain ⟨regions, folding, is, hregions, hfold, hlayOut, hrule, his, hoverlay⟩ :=
    exists_layOut_fillRule he hlen hlevel hunit hindent placeholder width
  refine ⟨regions, folding, is, hregions, hfold, hlayOut, hrule,
    fun x h1 h2 => ⟨hoverlay x h1 h2, ?_⟩⟩
  have hhidden := lineFeed_notMem_of_fold hfold hplain
  exact penColumn_eq_endColumn hindent (plain_of_mem_along hline his hhidden h2)

end Layout

/-- A stretch inside quotes, laid out from column 4 on with its third level hidden. The pen is
followed over four line breaks, to the opener of the group that is hidden. -/
theorem layout_follows_fill_rule_quoted :
    let src := Source.ofText "'pair<set<int> , map<key, (a)> >'".toList
    src.Balanced 1 32 ∧ ∃ regions folding is,
      src.regions ⟨1, 32⟩ = .ok regions ∧ fold regions (some 3) "...".toList = .ok folding ∧
      layOut src ⟨1, 32⟩ 20 2 4 folding.atoms = .ok is ∧
      FillRule src ⟨1, 32⟩ 20 2 4 folding.placeholders is ∧
      overlay src.text is folding.placeholders = src.text.take 1 ++
        penText src.text is folding.placeholders 1 27 ++
        penText src.text is folding.placeholders 27 (src.length + 1) ∧
      penColumn src.text is folding.placeholders 4 1 27 =
        Text.endColumn (List.replicate 4 ' ' ++ penText src.text is folding.placeholders 1 27) := by
  intro src
  have he : src.Balanced 1 32 := ⟨by decide, nested_iff_openAfter.mpr (by decide +kernel)⟩
  obtain ⟨regions, folding, is, hregions, hfold, hlayOut, hrule, hpen⟩ :=
    @layout_follows_fill_rule src ⟨1, 32⟩ he (by decide +kernel) (some 3) (by simp) 2 4 (by decide)
      (by decide) (by decide +kernel) "...".toList (Or.inr (by decide)) 20
  exact ⟨he, regions, folding, is, hregions, hfold, hlayOut, hrule, hpen 27 (by decide) (by decide)⟩

/-- **A placeholder with a line feed misleads the layout.** The group at 7 is shown from column 3
on, needs 10 columns of the 21 that are left, and is broken all the same: the layout has counted on
from the line that the placeholder ends. -/
theorem placeholder_with_line_feed_misleads :
    let src := Source.ofText "f<a<x>b<cc>>".toList
    ∃ regions folding is, src.regions ⟨0, 12⟩ = .ok regions ∧
      fold regions (some 2) "zzzzzzzz\n".toList = .ok folding ∧
      layOut src ⟨0, 12⟩ 24 2 0 folding.atoms = .ok is ∧ src.GroupIn ⟨0, 12⟩ 7 10 ∧
      isHidden folding.placeholders 7 = false ∧ is = [⟨2, 2⟩, ⟨8, 4⟩] ∧
      overlay src.text is folding.placeholders =
        "f<\n  a<zzzzzzzz\n>b<\n    zzzzzzzz\n>>".toList ∧
      Text.endColumn (penText src.text is folding.placeholders 0 8) = 3 ∧
      src.visibleLength folding.placeholders 8 11 = 10 := by
  intro src
  have he : src.Balanced 0 12 := ⟨by decide, nested_iff_openAfter.mpr (by decide +kernel)⟩
  obtain ⟨regions, folding, is, hregions, hfold, hlayOut, -⟩ :=
    @exists_layOut_fillRule src ⟨0, 12⟩ he (by decide +kernel) (some 2) (by simp) 2 0 (by decide)
      (by decide) "zzzzzzzz\n".toList 24
  have hgroup : src.GroupIn ⟨0, 12⟩ 7 10 :=
    ⟨⟨.angle, ⟨'<', .opener .angle⟩, ⟨'>', .closer .angle⟩, by decide +kernel, rfl,
      by decide +kernel, rfl, by decide, nested_iff_openAfter.mpr (by decide +kernel)⟩,
      by decide, by decide⟩
  have hview := eq_of_fold_map
    (a := (.ok [⟨2, 2⟩, ⟨8, 4⟩], false,
      "f<\n  a<zzzzzzzz\n>b<\n    zzzzzzzz\n>>".toList, 3, 10))
    (fun f => (layOut src ⟨0, 12⟩ 24 2 0 f.atoms, isHidden f.placeholders 7,
      overlay src.text [⟨2, 2⟩, ⟨8, 4⟩] f.placeholders,
      Text.endColumn (penText src.text [⟨2, 2⟩, ⟨8, 4⟩] f.placeholders 0 8),
      src.visibleLength f.placeholders 8 11)) hregions hfold (by decide +kernel)
  simp only [Prod.mk.injEq] at hview
  obtain ⟨his, hopen, hoverlay, hcolumn, hlength⟩ := hview
  obtain rfl := Except.ok.inj (hlayOut.symm.trans his)
  exact ⟨regions, folding, _, hregions, hfold, hlayOut, hgroup, hopen, rfl, hoverlay, hcolumn,
    hlength⟩

end DiagLayout
