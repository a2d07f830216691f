import DiagLayout.Proofs.RegionStructure
import DiagLayout.Proofs.ShownText

/-!
# What a fold hides, by depth

A fold at a level hides what lies in that many groups or more. `Source.enclosing` counts the groups
around a position by the walks from the openers, the brackets of a group being outside of it; and
`Text.collapse` goes over a text once, keeps some of its characters and puts one placeholder in the
place of each run of the others.

* `Laid.exists_region_iff`: a position lies in a region of a depth iff it lies in that many regions;
* `Laid.exists_around`: a region deeper than the level lies inside one of that level;
* `Layable.overlay_eq_collapse`: to lay placeholders over a text is to collapse what is hidden;
* `fold_hides_the_deep`: the placeholders of a fold, and the text with them in place.
-/

namespace DiagLayout

/-! ### One pass over a text -/

/-- **The text with one placeholder for each run of characters that are not kept.** The first
character stands at `i`, and `inRun` says that the one before it was not kept. -/
def Text.collapse (kept : Nat → Bool) (placeholder : Text) (i : Nat) (inRun : Bool) : Text → Text
  | [] => []
  | c :: t =>
    if kept i then c :: collapse kept placeholder (i + 1) false t
    else (if inRun then [] else placeholder) ++ collapse kept placeholder (i + 1) true t

section Collapse

variable {t : Text} {hidden : List Placeholder} {placeholder : Text}

/-- What is seen at an offset without instructions. -/
theorem shown_piecesAt (o : Nat) : (piecesAt t [] hidden o).flatMap Piece.shown =
    (hidden.filter fun p => p.span.start == (o : Int)).flatMap Placeholder.text ++
      keptAt t hidden o := by
  have hkept : ∀ u : Text, (u.map Piece.kept).flatMap Piece.shown = u :=
    flatMap_kept fun _ => rfl
  unfold piecesAt
  rw [List.filter_nil, List.map_nil, List.nil_append, List.flatMap_append, List.flatMap_map, hkept]
  rfl

variable (h : Layable t.length [] hidden) (htext : ∀ p ∈ hidden, p.text = placeholder)
include h

/-- At a hidden offset the placeholder is seen if its span starts there, which is to say that the
offset before is not hidden. -/
theorem Layable.shown_hidden {o : Nat} {p : Placeholder} (hp : p ∈ hidden) (h1 : p.span.start ≤ o)
    (h2 : o < p.span.stop) : (piecesAt t [] hidden o).flatMap Piece.shown =
      if p.span.start < o then [] else p.text := by
  rw [shown_piecesAt, keptAt_hidden hp h1 h2, List.append_nil, h.filter_start]
  by_cases hs : p.span.start < o
  · have hnone : placeholderAt hidden o = none := by
      by_contra hsome
      obtain ⟨q, hq⟩ := Option.ne_none_iff_exists'.mp hsome
      obtain ⟨hmem, hstart⟩ := placeholderAt_eq_some hq
      have hne : p ≠ q := by rintro rfl; omega
      have := h.span_lt q hmem
      rcases h.apart_of_ne hp hmem hne with hap | hap <;> omega
    rw [if_pos hs, hnone]
    rfl
  · have hstart : p.span.start = o := by omega
    rw [if_neg hs, ← hstart, h.placeholderAt_start hp]
    simp

theorem Layable.shown_kept {o : Nat} (hno : isHidden hidden o = false) :
    (piecesAt t [] hidden o).flatMap Piece.shown = t[o]?.toList := by
  have hnone : (hidden.filter fun p => p.span.start == (o : Int)) = [] := by
    refine List.filter_eq_nil_iff.mpr fun p hp hs => ?_
    rw [beq_iff_eq] at hs
    have hyes := isHidden_iff.mpr ⟨p, hp, Int.le_of_eq hs, by have := h.span_lt p hp; omega⟩
    rw [hno] at hyes
    cases hyes
  rw [shown_piecesAt, hnone, keptAt, hno]
  rfl

include htext

/-- The pass from an offset on, when `inRun` tells whether a span reaches over to it. -/
theorem Layable.along_eq_collapse (u : Text) : ∀ (i : Nat) (inRun : Bool), t.drop i = u →
    i + u.length = t.length →
    (inRun = true ↔ ∃ p ∈ hidden, p.span.start < i ∧ i ≤ p.span.stop) →
      along (fun o => (piecesAt t [] hidden o).flatMap Piece.shown) i t.length =
        Text.collapse (fun o => !isHidden hidden o) placeholder i inRun u := by
  induction u with
  | nil =>
    intro i inRun _ hlen _
    rw [← hlen, List.length_nil, Nat.add_zero]
    simp [along, Text.collapse]
  | cons c u ih =>
    intro i inRun hdrop hlen hrun
    rw [List.length_cons] at hlen
    have hc : t[i]? = some c := by rw [← List.head?_drop, hdrop, List.head?_cons]
    have hnext : t.drop (i + 1) = u := by rw [← List.tail_drop, hdrop, List.tail_cons]
    have hreach : isHidden hidden i = true ↔
        ∃ p ∈ hidden, p.span.start < (i + 1 : Nat) ∧ (i + 1 : Nat) ≤ p.span.stop := by
      rw [isHidden_iff]
      refine exists_congr fun p => and_congr_right fun _ => ?_
      omega
    rw [along_succ (by omega), Text.collapse,
      ih (i + 1) (isHidden hidden i) hnext (by omega) hreach]
    by_cases hi : isHidden hidden i = true
    · obtain ⟨p, hp, h1, h2⟩ := isHidden_iff.mp hi
      have hstart : inRun = true ↔ p.span.start < i := by
        rw [hrun]
        constructor
        · -- the span that reaches over is the one at `i`, for the spans are apart
          rintro ⟨q, hq, h3, h4⟩
          by_contra hs
          have hne : p ≠ q := by rintro rfl; exact hs h3
          rcases h.apart_of_ne hp hq hne with hap | hap <;> omega
        · intro hs
          exact ⟨p, hp, hs, Int.le_of_lt h2⟩
      rw [h.shown_hidden hp h1 h2, htext p hp, hi]
      by_cases hs : p.span.start < i
      · simp [hs, hstart.mpr hs]
      · simp [hs, Bool.eq_false_iff.mpr (mt hstart.mp hs)]
    · rw [Bool.not_eq_true] at hi
      rw [h.shown_kept hi, hi, hc]
      simp

/-- **To lay placeholders over a text is to collapse what they hide.** -/
theorem Layable.overlay_eq_collapse :
    overlay t [] hidden = Text.collapse (fun o => !isHidden hidden o) placeholder 0 false t := by
  rw [h.overlay_eq_along]
  refine h.along_eq_collapse htext t 0 false rfl (by simp) (iff_of_false (by simp) ?_)
  rintro ⟨p, hp, hs, -⟩
  have := h.inside p hp
  omega

end Collapse

/-! ### Groups around a position -/

/-- The number of groups around a position. The brackets of a group are not inside it. -/
def Source.enclosing (src : Source) (x : Nat) : Nat :=
  (src.openers src.whole).countP fun p : Nat =>
    match src.findCloser p src.length with
    | .ok (some c) => p < x && x < c
    | _ => false

theorem countP_eq_of_forall₂ {α β : Type} {R : α → β → Prop} {p : α → Bool} {q : β → Bool}
    (hpq : ∀ a b, R a b → p a = q b) {as : List α} {bs : List β} (h : List.Forall₂ R as bs) :
    as.countP p = bs.countP q := by
  induction h with
  | nil => rfl
  | cons hab _ ih => rw [List.countP_cons, List.countP_cons, ih, hpq _ _ hab]

theorem Span.contains_iff {s : Span} {x : Int} :
    s.contains x = true ↔ s.start ≤ x ∧ x < s.stop := by
  simp [Span.contains]

theorem Region.contains_iff {r : Region} {x : Nat} :
    r.span.contains x = true ↔ r.start ≤ x ∧ x < r.stop := Span.contains_iff

namespace Laid

variable {src : Source} {i j : Nat} {f : Forest Token}

/-- **The groups around a position are the regions it lies in.** -/
theorem enclosing_eq_countP (h : Laid src 0 f src.length) (d : Int) (x : Nat) :
    src.enclosing x = (f.regions d).countP fun r => r.span.contains x := by
  refine countP_eq_of_forall₂ (fun p r hpr => ?_)
    (h.openers_forall₂ (Nat.le_refl _) (Nat.le_refl _) d)
  obtain ⟨c, hc, hstart, hstop⟩ := hpr
  rw [hc, Bool.eq_iff_iff, Region.contains_iff, hstart, hstop]
  simp only [Bool.and_eq_true, decide_eq_true_eq]
  omega

/-- Regions that do not hold a position add nothing to either side of `exists_region_iff`. -/
theorem nothing_of_not_contains {rs : List Region} {x : Nat} {level : Int}
    (h : ∀ r ∈ rs, ¬ r.span.contains x = true) :
    rs.countP (fun r => r.span.contains x) = 0 ∧
      ¬ ∃ r ∈ rs, r.depth = level ∧ r.span.contains x = true := by
  refine ⟨List.countP_eq_zero.mpr h, ?_⟩
  rintro ⟨r, hmem, -, hcon⟩
  exact h r hmem hcon

/-- **A position lies in a region of a depth iff it lies in that many regions**, counted from the
depth of the forest. -/
theorem exists_region_iff (h : Laid src i f j) (x : Nat) : ∀ {d level : Int}, d < level →
    ((∃ r ∈ f.regions d, r.depth = level ∧ r.span.contains x = true) ↔
      level ≤ d + (f.regions d).countP fun r => r.span.contains x) := by
  induction h with
  | nil =>
    intro d level hlevel
    simpa [Forest.regions] using hlevel
  | item _ _ _ ih => exact fun hlevel => ih hlevel
  | @group i j b o c inner rest ho hob hi hc hcb hr ihi ihr =>
    intro d level hlevel
    obtain ⟨-, hostop, -, hlt, -⟩ := group_bounds ho hob hi hc hr
    have hfirst : (⟨o.start + 1, c.start, d + 1⟩ : Region).span.contains x = true ↔
        o.stop ≤ x ∧ x < c.start := by
      rw [Region.contains_iff]
      simp only
      omega
    simp only [Forest.regions, List.mem_cons, List.mem_append, or_and_right, exists_or,
      exists_eq_left, List.countP_cons, List.countP_append]
    by_cases hx : o.stop ≤ x ∧ x < c.start
    · -- the position is inside the group, so behind it nothing counts
      have hnot : ∀ r ∈ rest.regions d, ¬ r.span.contains x = true := by
        intro r hmem hcon
        have h1 := (hr.region_bounds hmem).1
        have h2 := Region.contains_iff.mp hcon
        omega
      obtain ⟨hzero, hnone⟩ := nothing_of_not_contains hnot
      rw [hzero, hfirst.mpr hx, or_iff_left hnone, if_pos rfl]
      by_cases hd : level = d + 1
      · exact iff_of_true (Or.inl ⟨hd.symm, rfl⟩) (by omega)
      · rw [or_iff_right (fun hh => hd hh.1.symm), ihi (show d + 1 < level by omega)]
        omega
    · have hnot : ∀ r ∈ inner.regions (d + 1), ¬ r.span.contains x = true := by
        intro r hmem hcon
        obtain ⟨h1, -, h2, -⟩ := hi.region_bounds hmem
        have h3 := Region.contains_iff.mp hcon
        omega
      obtain ⟨hzero, hnone⟩ := nothing_of_not_contains hnot
      rw [hzero, if_neg (mt hfirst.mp hx), or_iff_right (fun hh => hx (hfirst.mp hh.2)),
        or_iff_right hnone, ihr hlevel]
      simp

/-- A region deeper than a level lies inside a region of that level. -/
theorem exists_around (h : Laid src i f j) : ∀ {d level : Int} {r : Region}, d < level →
    r ∈ f.regions d → level < r.depth → ∃ r' ∈ f.regions d, r'.depth = level ∧ r.Inside r' := by
  induction h with
  | nil => intro d level r _ hr; simp [Forest.regions] at hr
  | item _ _ _ ih => exact fun hlevel hr => ih hlevel hr
  | @group i j b o c inner rest ho hob hi hc hcb hr ihi ihr =>
    intro d level r hlevel hmem hdeep
    obtain ⟨-, hostop, -, -, -⟩ := group_bounds ho hob hi hc hr
    simp only [Forest.regions, List.mem_cons, List.mem_append] at hmem ⊢
    rcases hmem with rfl | hmem | hmem
    · simp only at hdeep
      omega
    · by_cases hd : level = d + 1
      · obtain ⟨h1, -, h2, -⟩ := hi.region_bounds hmem
        exact ⟨_, Or.inl rfl, hd.symm, by simp only; omega, h2⟩
      · obtain ⟨r', hmem', hr'⟩ := ihi (show d + 1 < level by omega) hmem hdeep
        exact ⟨r', Or.inr (Or.inl hmem'), hr'⟩
    · obtain ⟨r', hmem', hr'⟩ := ihr hlevel hmem hdeep
      exact ⟨r', Or.inr (Or.inr hmem'), hr'⟩

end Laid

/-! ### The placeholders of a fold -/

/-- The region lies in the hidden span. -/
def Placeholder.Covers (p : Placeholder) (r : Region) : Prop :=
  p.span.start ≤ r.start ∧ r.stop ≤ p.span.stop

section Fold

variable {src : Source} {i j : Nat} {f : Forest Token} (hl : Laid src i f j) {level : Int}
  {placeholder : Text} {folding : Folding}
  (hfold : fold (f.regions 0) (some level) placeholder = .ok folding)
include hl hfold

/-- **What is hidden lies in as many groups as the level says.** -/
theorem isHidden_iff_level_le (hlevel : 1 ≤ level) (x : Nat) :
    isHidden folding.placeholders x = true ↔
      level ≤ (f.regions 0).countP fun r => r.span.contains x := by
  have hiff := hl.exists_region_iff x (show (0 : Int) < level by omega)
  rw [Int.zero_add] at hiff
  rw [isHidden_iff, ← hiff]
  constructor
  · rintro ⟨p, hp, h1, h2⟩
    obtain ⟨r, hr, hd, -, rfl⟩ := (mem_placeholders_of_fold hfold).mp hp
    exact ⟨r, hr, (Option.some_inj.mp hd).symm, Region.contains_iff.mpr ⟨h1, h2⟩⟩
  · rintro ⟨r, hr, hd, hx⟩
    obtain ⟨h1, h2⟩ := Region.contains_iff.mp hx
    exact ⟨_, (mem_placeholders_of_fold hfold).mpr ⟨r, hr, hd ▸ rfl, by omega, rfl⟩, h1, h2⟩

theorem exists_covers (hlevel : 1 ≤ level) {r : Region} (hr : r ∈ f.regions 0)
    (hdeep : level < r.depth) : ∃ p ∈ folding.placeholders, p.Covers r := by
  obtain ⟨r', hr', hd, h1, h2⟩ := hl.exists_around (show (0 : Int) < level by omega) hr hdeep
  have hle := (hl.region_bounds hr).2.1
  exact ⟨_, (mem_placeholders_of_fold hfold).mpr ⟨r', hr', hd ▸ rfl, by omega, rfl⟩,
    Int.le_of_lt h1, Int.le_of_lt h2⟩

/-- A region lies in one hidden span at most, for these are apart. -/
theorem covers_unique {p p' : Placeholder} (hp : p ∈ folding.placeholders)
    (hp' : p' ∈ folding.placeholders) {r : Region} (hr : r ∈ f.regions 0) (h : p.Covers r)
    (h' : p'.Covers r) : p = p' := by
  by_contra hne
  have hle := (hl.region_bounds hr).2.1
  obtain ⟨h1, h2⟩ := h
  obtain ⟨h3, h4⟩ := h'
  rcases rel_or_rel_of_pairwise (placeholders_apart hl hfold).1 hp hp' hne with h5 | h5 <;> omega

/-- What lies in a hidden span is as deep as the level or deeper. -/
theorem le_depth_of_covers {p : Placeholder} (hp : p ∈ folding.placeholders) {r : Region}
    (hr : r ∈ f.regions 0) (h : p.Covers r) : level ≤ r.depth := by
  obtain ⟨r', hr', ⟨⟩, -, rfl⟩ := (mem_placeholders_of_fold hfold).mp hp
  obtain ⟨h1, h2⟩ : r'.start ≤ r.start ∧ r.stop ≤ r'.stop := h
  by_cases hne : r' = r
  · exact Int.le_of_eq (congrArg Region.depth hne)
  · have hle := (hl.region_bounds hr).2.1
    have hle' := (hl.region_bounds hr').2.1
    rcases rel_or_rel_of_pairwise (hl.pairwise_apart_or_inside 0) hr' hr hne with
      (h3 | ⟨-, h3⟩) | (h3 | ⟨⟨h3, -⟩, -⟩) <;> omega

end Fold

/-- **A fold hides exactly what is deep.** The hidden spans of a text with whole groups are not
empty, apart and in order; a region deeper than the level lies in exactly one of them, and a region
less deep in none. The text with the placeholders in place is the text where the characters in fewer
groups than the level are kept and each run of the others is collapsed. -/
theorem fold_hides_the_deep {t : Text} (ht : Nested Glyph.cls (Source.ofText t)) {level : Int}
    (hlevel : 1 ≤ level) (placeholder : Text) :
    ∃ regions folding,
      (Source.ofText t).regions (Source.ofText t).whole = .ok regions ∧
      fold regions (some level) placeholder = .ok folding ∧
      (∀ p ∈ folding.placeholders, p.span.start < p.span.stop) ∧
      (folding.placeholders.Pairwise fun p p' => p.span.stop < p'.span.start) ∧
      (∀ r ∈ regions, level < r.depth → ∃! p, p ∈ folding.placeholders ∧ p.Covers r) ∧
      (∀ r ∈ regions, r.depth < level → ∀ p ∈ folding.placeholders, ¬ p.Covers r) ∧
      overlay t [] folding.placeholders =
        Text.collapse (fun x => (Source.ofText t).enclosing x < level) placeholder 0 false t := by
  have hbal : (Source.ofText t).Balanced 0 (Source.ofText t).length := by
    refine ⟨Nat.zero_le _, ?_⟩
    rw [Source.window, List.drop_zero, Nat.sub_zero, List.take_length]
    exact ht
  obtain ⟨f, hw, hl⟩ := exists_laid (e := (Source.ofText t).whole) hbal (Nat.le_refl _)
  obtain ⟨folding, hfold⟩ := exists_fold (f.regions 0) placeholder
    (show ∀ n ∈ some level, 1 ≤ n by simpa using hlevel)
  obtain ⟨hapart, hinside⟩ := placeholders_apart hl hfold
  refine ⟨f.regions 0, folding, regions_eq_of_laid (Nat.le_refl _) hw hl, hfold,
    fun p hp => (hinside p hp).2.1, hapart, fun r hr hdeep => ?_, fun r hr hless p hp hcov => ?_,
    ?_⟩
  · obtain ⟨p, hp, hcov⟩ := exists_covers hl hfold hlevel hr hdeep
    exact ⟨p, ⟨hp, hcov⟩, fun p' hp' => covers_unique hl hfold hp'.1 hp hr hp'.2 hcov⟩
  · have := le_depth_of_covers hl hfold hp hr hcov
    omega
  · have hlay : Layable (Source.ofText t).length [] folding.placeholders :=
      layable_of_fold hl (Nat.le_refl _) hfold (Placed.nil : Placed _ _ _ 0 [])
    rw [Source.length_ofText] at hlay
    have htext : ∀ p ∈ folding.placeholders, p.text = placeholder := by
      intro p hp
      obtain ⟨r, -, -, -, rfl⟩ := (mem_placeholders_of_fold hfold).mp hp
      rfl
    have hkept : (fun x => !isHidden folding.placeholders x) =
        fun x => decide (((Source.ofText t).enclosing x : Int) < level) := by
      funext x
      rw [hl.enclosing_eq_countP 0 x, Bool.eq_iff_iff, Bool.not_eq_true', ← Bool.not_eq_true,
        isHidden_iff_level_le hl hfold hlevel, decide_eq_true_eq, Int.not_le]
    rw [hlay.overlay_eq_collapse htext, hkept]

/-- At the second level two groups of `f(a<b<c>>, g(), (d))` are hidden, and the empty one stays. -/
theorem fold_hides_the_deep_second :
    ∃ regions folding,
      (Source.ofText "f(a<b<c>>, g(), (d))".toList).regions ⟨0, 20⟩ = .ok regions ∧
      fold regions (some 2) ['~'] = .ok folding ∧
      overlay "f(a<b<c>>, g(), (d))".toList [] folding.placeholders =
        "f(a<~>, g(), (~))".toList := by
  have ht : Nested Glyph.cls (Source.ofText "f(a<b<c>>, g(), (d))".toList) :=
    nested_iff_openAfter.mpr (by decide +kernel)
  obtain ⟨regions, folding, hregions, hfold, -, -, -, -, htext⟩ :=
    fold_hides_the_deep ht (show (1 : Int) ≤ 2 by decide) ['~']
  exact ⟨regions, folding, hregions, hfold, htext.trans (by decide +kernel)⟩

end DiagLayout
