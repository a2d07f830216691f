import DiagLayout.Fold
import DiagLayout.Proofs.Regions

/-!
# What a fold hides

Folding a nested stretch at a level hides the interiors of the groups of that depth, unless they are
empty (`hides_of_fold`). `Hides` says this of a list of atoms by positions alone, so that it can be
used for any part of the stretch, cut into tokens anew.

A forest that covers a part of the stretch less deep than the level is *shown*: no atom reaches into
its tokens, those of hidden groups aside (`Hides.shown`). Hence it *agrees* with the atoms: each of
its groups is either hidden whole or has nothing hidden at its own depth (`Hides.agrees`).
-/

namespace DiagLayout

/-! ### The spans that a fold hides -/

theorem level_of_fold {regions : List Region} {level : Option Int} {placeholder : Text}
    {folding : Folding} (h : fold regions level placeholder = .ok folding) :
    folding.level = level ∧ ∀ n ∈ level, 1 ≤ n := by
  unfold fold at h
  split at h
  · cases h; simp
  · split_ifs at h with hn
    cases h
    refine ⟨rfl, fun n hm => ?_⟩
    cases hm
    omega

theorem exists_fold (regions : List Region) {level : Option Int} (placeholder : Text)
    (h : ∀ n ∈ level, 1 ≤ n) : ∃ folding, fold regions level placeholder = .ok folding := by
  rcases level with _ | n
  · exact ⟨_, rfl⟩
  · have hn : ¬ n < 1 := by have := h n rfl; omega
    exact ⟨⟨some n, regions.map fun r => ⟨r, visibilityAt n placeholder r⟩⟩, by simp [fold, hn]⟩

/-- What is computed from a fold, where regions and fold are computed too. -/
theorem eq_of_fold_map {α : Type} {src : Source} {e : Extent} {regions : List Region}
    {level : Option Int} {placeholder : Text} {folding : Folding} (view : Folding → α) {a : α}
    (hregions : src.regions e = .ok regions) (hfold : fold regions level placeholder = .ok folding)
    (h : (src.regions e >>= fun rs => (fold rs level placeholder).map view) = .ok a) :
    view folding = a := by
  rw [hregions] at h
  simp only [bind, Except.bind, hfold] at h
  exact Except.ok.inj h

/-- The region is replaced by a placeholder at the level. -/
def Region.isReplacedAt (level : Option Int) (r : Region) : Bool :=
  level == some r.depth && decide (r.start < r.stop)

/-- **The placeholders of a fold**: one for each region of the level that is not empty. -/
theorem placeholders_of_fold {regions : List Region} {level : Option Int} {placeholder : Text}
    {folding : Folding} (h : fold regions level placeholder = .ok folding) :
    folding.placeholders =
      (regions.filter (Region.isReplacedAt level)).map fun r => ⟨r.span, placeholder⟩ := by
  unfold fold at h
  split at h
  · cases h
    simp [Folding.placeholders, Folding.placeholderOf, List.filterMap_map, Function.comp_def,
      Region.isReplacedAt]
  · next n =>
    split_ifs at h
    cases h
    rw [Folding.placeholders, List.filterMap_map, ← List.filterMap_eq_map, List.filterMap_filter]
    refine List.filterMap_congr fun r _ => ?_
    simp only [Function.comp_def, Folding.placeholderOf, visibilityAt, Region.isReplacedAt]
    rcases Int.lt_trichotomy r.depth n with hd | hd | hd
    · have hne : ¬ n = r.depth := by omega
      simp [hd, hne]
    · subst hd
      by_cases hlt : r.start < r.stop <;> simp [hlt]
    · have h1 : ¬ r.depth < n := by omega
      have h2 : ¬ r.depth = n := by omega
      have h3 : ¬ n = r.depth := by omega
      simp [h1, h2, h3]

theorem mem_placeholders_of_fold {regions : List Region} {level : Option Int} {placeholder : Text}
    {folding : Folding} (h : fold regions level placeholder = .ok folding) {p : Placeholder} :
    p ∈ folding.placeholders ↔ ∃ r ∈ regions, level = some r.depth ∧ r.start < r.stop ∧
      p = ⟨r.span, placeholder⟩ := by
  simp only [placeholders_of_fold h, List.mem_map, List.mem_filter, Region.isReplacedAt,
    Bool.and_eq_true, beq_iff_eq, decide_eq_true_eq]
  constructor
  · rintro ⟨r, ⟨hr, hl, hlt⟩, rfl⟩; exact ⟨r, hr, hl, hlt, rfl⟩
  · rintro ⟨r, hr, hl, hlt, rfl⟩; exact ⟨r, ⟨hr, hl, hlt⟩, rfl⟩

/-- What a fold shows has no line feed, if the placeholder has none or nothing is folded. -/
theorem lineFeed_notMem_of_fold {regions : List Region} {level : Option Int} {placeholder : Text}
    {folding : Folding} (h : fold regions level placeholder = .ok folding)
    (hplain : level = none ∨ '\n' ∉ placeholder) : ∀ p ∈ folding.placeholders, '\n' ∉ p.text := by
  intro p hp
  obtain ⟨r, -, hl, -, rfl⟩ := (mem_placeholders_of_fold h).mp hp
  rcases hplain with rfl | hplain
  · cases hl
  · exact hplain

theorem mem_atoms_of_fold {regions : List Region} {level : Option Int} {placeholder : Text}
    {folding : Folding} (h : fold regions level placeholder = .ok folding) {a : Atom} :
    a ∈ folding.atoms ↔ ∃ r ∈ regions, level = some r.depth ∧ r.start < r.stop ∧
      a = ⟨r.span, placeholder.length⟩ := by
  unfold Folding.atoms
  rw [List.mem_map]
  constructor
  · rintro ⟨p, hp, rfl⟩
    obtain ⟨r, hr, hl, hlt, rfl⟩ := (mem_placeholders_of_fold h).mp hp
    exact ⟨r, hr, hl, hlt, rfl⟩
  · rintro ⟨r, hr, hl, hlt, rfl⟩
    exact ⟨_, (mem_placeholders_of_fold h).mpr ⟨r, hr, hl, hlt, rfl⟩, rfl⟩

/-- **The placeholders of a fold are apart**, not empty, and inside what the forest covers. -/
theorem placeholders_apart {src : Source} {i j : Nat} {f : Forest Token} (hl : Laid src i f j)
    {level : Option Int} {placeholder : Text} {folding : Folding}
    (h : fold (f.regions 0) level placeholder = .ok folding) :
    folding.placeholders.Pairwise (fun p p' => p.span.stop < p'.span.start) ∧
      ∀ p ∈ folding.placeholders,
        i < p.span.start ∧ p.span.start < p.span.stop ∧ p.span.stop < j := by
  constructor
  · have hrep : ∀ {r : Region}, r.isReplacedAt level = true → level = some r.depth :=
      fun hr => by
        simp only [Region.isReplacedAt, Bool.and_eq_true, beq_iff_eq] at hr
        exact hr.1
    rw [placeholders_of_fold h]
    refine List.pairwise_map.mpr (List.Pairwise.imp_of_mem ?_ ((hl.pairwise_regions 0).filter _))
    intro r r' hr hr' hapart
    have h1 := hrep (List.mem_filter.mp hr).2
    have h2 := hrep (List.mem_filter.mp hr').2
    exact hapart (Option.some_inj.mp (h1.symm.trans h2))
  · intro p hp
    obtain ⟨r, hmem, -, hlt, rfl⟩ := (mem_placeholders_of_fold h).mp hp
    obtain ⟨h1, -, h3, -⟩ := hl.region_bounds hmem
    exact ⟨h1, hlt, h3⟩

/-! ### Hidden groups by their positions -/

/-- **The atoms hide the level**: they are the interiors, where not empty, of the groups between
`base` and `stop` that are as deep as the level. -/
structure Hides (src : Source) (base stop : Nat) (level : Option Int) (atoms : List Atom) :
    Prop where
  sound : ∀ a ∈ atoms, ∃ p q : Nat, src.GroupAt p q ∧ base ≤ p ∧ q < stop ∧ p + 1 < q ∧
    level = some (src.depthFrom base (p + 1)) ∧ a.span = ⟨(p : Int) + 1, q⟩
  complete : ∀ p q : Nat, src.GroupAt p q → base ≤ p → q < stop → p + 1 < q →
    level = some (src.depthFrom base (p + 1)) → ∃ a ∈ atoms, a.span = ⟨(p : Int) + 1, q⟩

/-- **A fold hides its level.** -/
theorem hides_of_fold {src : Source} {i j : Nat} {f : Forest Token} (hl : Laid src i f j)
    {level : Option Int} {placeholder : Text} {folding : Folding}
    (h : fold (f.regions 0) level placeholder = .ok folding) :
    Hides src i j level folding.atoms := by
  have hd : src.depthFrom i i = 0 := Source.depthFrom_self i
  have hmem := fun r => hl.mem_regions_iff (r := r) (Nat.le_refl i)
  rw [hd] at hmem
  constructor
  · intro a ha
    obtain ⟨r, hr, hlev, hlt, rfl⟩ := (mem_atoms_of_fold h).mp ha
    obtain ⟨p, q, hg, hi, hj, rfl⟩ := (hmem r).mp hr
    exact ⟨p, q, hg, hi, hj, by simp only at hlt; omega, hlev, rfl⟩
  · intro p q hg hi hj hlt hlev
    refine ⟨⟨⟨(p : Int) + 1, q⟩, placeholder.length⟩, (mem_atoms_of_fold h).mpr ?_, rfl⟩
    exact ⟨⟨(p : Int) + 1, q, src.depthFrom i (p + 1)⟩, (hmem _).mpr ⟨p, q, hg, hi, hj, rfl⟩, hlev,
      by simp only; omega, rfl⟩

/-! ### The atom at a position -/

theorem Atom.startingAt_eq_some {atoms : List Atom} {i : Nat} {a : Atom}
    (h : Atom.startingAt atoms i = some a) : a ∈ atoms ∧ a.span.start = i := by
  have hm := List.mem_of_getLast? h
  rw [List.mem_filter, beq_iff_eq] at hm
  exact hm

theorem Atom.startingAt_eq_none_iff {atoms : List Atom} {i : Nat} :
    Atom.startingAt atoms i = none ↔ ∀ a ∈ atoms, a.span.start ≠ i := by
  simp [Atom.startingAt]

/-- The offset `x` is neither inside an atom nor at its end. -/
def Atom.Clear (atoms : List Atom) (x : Int) : Prop :=
  ∀ a ∈ atoms, x ≤ a.span.start ∨ a.span.stop < x

/-- No atom reaches into the positions from `i` to `j`. -/
def Atom.Apart (atoms : List Atom) (i j : Nat) : Prop :=
  ∀ a ∈ atoms, a.span.stop ≤ i ∨ (j : Int) ≤ a.span.start

theorem Atom.Apart.clear {atoms : List Atom} {i j x : Nat} (h : Atom.Apart atoms i j) (hi : i < x)
    (hj : x ≤ j) : Atom.Clear atoms x := by
  intro a ha
  rcases h a ha with h | h <;> omega

theorem Atom.Apart.startingAt_eq_none {atoms : List Atom} {i j : Nat} (h : Atom.Apart atoms i j)
    (hij : i < j) (hpos : ∀ a ∈ atoms, 0 < a.span.length) : Atom.startingAt atoms i = none := by
  rw [Atom.startingAt_eq_none_iff]
  intro a ha hs
  have hlen := hpos a ha
  unfold Span.length at hlen
  rcases h a ha with h | h <;> omega

/-- The tokens of a forest are apart from the atoms, those of hidden groups aside. -/
def Forest.Shown (atoms : List Atom) : Forest Token → Prop
  | nil => True
  | item t rest => Atom.Apart atoms t.start t.stop ∧ rest.Shown atoms
  | group o inner c rest =>
    Atom.Apart atoms o.start o.stop ∧ Atom.Apart atoms c.start c.stop ∧
      (Atom.startingAt atoms o.stop = none → inner.Shown atoms) ∧ rest.Shown atoms

/-- Each group of the forest is hidden whole, or nothing is hidden at its own depth. -/
def Forest.Agrees (atoms : List Atom) : Forest Token → Prop
  | nil => True
  | item t rest => Atom.startingAt atoms t.start = none ∧ rest.Agrees atoms
  | group o inner c rest =>
    Atom.startingAt atoms o.start = none ∧ Atom.startingAt atoms c.start = none ∧
      ((∃ a, Atom.startingAt atoms o.stop = some a ∧ a.span = ⟨o.stop, c.start⟩ ∧ inner ≠ nil) ∨
        (Atom.startingAt atoms o.stop = none ∧ inner.Agrees atoms)) ∧
      rest.Agrees atoms

/-- Behind its first glyph a token has the depth of its end. -/
theorem Token.At.depthFrom_tail {src : Source} {base i x : Nat} {t : Token} (h : t.At src i)
    (hb : base ≤ i) (hi : i < x) (hx : x ≤ t.stop) :
    src.depthFrom base x = src.depthFrom base t.stop := by
  have hs := h.start_eq
  obtain ⟨g, tail, hg, -, htail, -⟩ := h.formed
  have htoken : src.window ⟨i, t.stop⟩ = g :: tail := by
    rw [← hg, h.reads, Token.extent, hs]
  have hrest : src.window ⟨x, t.stop⟩ = tail.drop (x - i - 1) := by
    have hdrop : src.window ⟨x, t.stop⟩ = (src.window ⟨i, t.stop⟩).drop (x - i) := by
      simp only [Source.window]
      rw [List.drop_take, List.drop_drop, show i + (x - i) = x by omega,
        show t.stop - i - (x - i) = t.stop - x by omega]
    obtain ⟨k, hk⟩ : ∃ k, x - i = k + 1 := ⟨x - i - 1, by omega⟩
    rw [hdrop, htoken, hk, List.drop_succ_cons, Nat.add_sub_cancel]
  have hbal : src.Balanced x t.stop := by
    refine Source.Balanced.of_items hx fun y hy => ?_
    rw [hrest] at hy
    exact htail y (List.mem_of_mem_drop hy)
  exact (hbal.depthFrom_eq (by omega)).symm

namespace Hides

variable {src : Source} {base stop : Nat} {level : Option Int} {atoms : List Atom}

theorem span_length_pos (h : Hides src base stop level atoms) {a : Atom} (ha : a ∈ atoms) :
    0 < a.span.length := by
  obtain ⟨p, q, -, -, -, hlt, -, hs⟩ := h.sound a ha
  rw [hs, Span.length]
  simp only
  omega

/-- Where the level is not reached no atom reaches over. -/
theorem clear (h : Hides src base stop level atoms) {x : Nat}
    (hd : ∀ n ∈ level, src.depthFrom base x < n) : Atom.Clear atoms x := by
  intro a ha
  obtain ⟨p, q, hg, hb, -, -, hlev, hspan⟩ := h.sound a ha
  by_contra hcon
  rw [hspan] at hcon
  simp only at hcon
  have h1 := hd _ hlev
  have h2 := hg.depthFrom_le hb (show p < x by omega) (show x ≤ q by omega)
  omega

/-- A position is shown where the level is not reached, there or one position further on. -/
theorem apart (h : Hides src base stop level atoms) {i j : Nat} (hij : i < j)
    (hd : ∀ x, i ≤ x → x < j → ∀ n ∈ level,
      src.depthFrom base x < n ∨ src.depthFrom base (x + 1) < n) : Atom.Apart atoms i j := by
  intro a ha
  obtain ⟨p, q, hg, hb, -, hlt, hlev, hspan⟩ := h.sound a ha
  by_contra hcon
  rw [hspan] at hcon
  simp only at hcon
  -- the first position of the atom that is not before `i`
  have hx := hd (max i (p + 1)) (by omega) (by omega) _ hlev
  have h1 := hg.depthFrom_le hb (show p < max i (p + 1) by omega) (by omega)
  have h2 := hg.depthFrom_le hb (show p < max i (p + 1) + 1 by omega) (by omega)
  omega

theorem apart_token (h : Hides src base stop level atoms) {i : Nat} {t : Token} (ht : t.At src i)
    (hb : base ≤ i) (hd : ∀ n ∈ level, src.depthFrom base t.stop < n) :
    Atom.Apart atoms t.start t.stop := by
  have hs := ht.start_eq
  refine h.apart ht.formed.lt_stop fun x hx hx' n hn => Or.inr ?_
  rw [ht.depthFrom_tail hb (by omega) (by omega)]
  exact hd n hn

theorem apart_opener (h : Hides src base stop level atoms) {i : Nat} {o : Token} {b : Bracket}
    (ho : o.At src i) (hob : o.cls = .opener b) (hd : ∀ n ∈ level, src.depthFrom base i < n) :
    Atom.Apart atoms o.start o.stop := by
  have hs := ho.start_eq
  have hstop := ho.formed.stop_opener hob
  refine h.apart ho.formed.lt_stop fun x hx hx' n hn => Or.inl ?_
  obtain rfl : x = i := by omega
  exact hd n hn

/-- The interior of a group as deep as the level is hidden, unless it is empty. -/
theorem startingAt_opener (h : Hides src base stop level atoms) {p q : Nat}
    (hg : src.GroupAt p q) (hb : base ≤ p) (hq : q < stop) (hlt : p + 1 < q)
    (hd : level = some (src.depthFrom base (p + 1))) : Atom.startingAt atoms (p + 1) ≠ none := by
  intro hnone
  obtain ⟨a, ha, hspan⟩ := h.complete p q hg hb hq hlt hd
  apply Atom.startingAt_eq_none_iff.mp hnone a ha
  rw [hspan]
  simp

/-- What is hidden behind an opener is the interior of its group. -/
theorem span_of_startingAt (h : Hides src base stop level atoms) {p q : Nat} {a : Atom}
    (hg : src.GroupAt p q) (ha : Atom.startingAt atoms (p + 1) = some a) :
    a.span = ⟨((p + 1 : Nat) : Int), q⟩ ∧ p + 1 < q := by
  obtain ⟨hmem, hs⟩ := Atom.startingAt_eq_some ha
  obtain ⟨p', q', hg', -, -, hlt, -, hspan⟩ := h.sound a hmem
  obtain rfl : p' = p := by rw [hspan] at hs; simp only at hs; omega
  obtain rfl := hg'.unique hg
  rw [hspan]
  exact ⟨by simp, hlt⟩

/-- **A forest less deep than the level is shown.** -/
theorem shown (h : Hides src base stop level atoms) {i j : Nat} {f : Forest Token}
    (hl : Laid src i f j) (hb : base ≤ i) (hj : j ≤ stop)
    (hd : ∀ n ∈ level, src.depthFrom base i < n) : f.Shown atoms := by
  induction hl with
  | nil => trivial
  | @item i j t rest ht hbr hr ih =>
    obtain ⟨hs, hlt, -⟩ := Laid.item_bounds ht hr
    have hstop := ht.depthFrom_item hbr hb
    exact ⟨h.apart_token ht hb (by rwa [hstop]), ih (by omega) hj (by rwa [hstop])⟩
  | @group i j b o c inner rest ho hob hi hc hcb hr ihi ihr =>
    obtain ⟨hos, hostop, hile, hlt, hrle⟩ := Laid.group_bounds ho hob hi hc hr
    have hdi := ho.depthFrom_opener hob hb
    have hdr := Laid.depthFrom_group ho hob hi hc hcb hb
    refine ⟨h.apart_opener ho hob hd, h.apart_token hc (by omega) (by rwa [hdr]), fun hnone => ?_,
      ihr (by omega) hj (by rwa [hdr])⟩
    by_cases hlev : level = some (src.depthFrom base o.stop)
    · -- a group of the level that is not hidden is empty
      have hempty : inner = .nil := by
        by_contra hne
        have hpos := hi.lt_of_ne_nil hne
        rw [hostop] at hlev hpos hnone
        exact h.startingAt_opener (Laid.groupAt ho hob hi hc hcb) (by omega) (by omega) hpos hlev
          hnone
      rw [hempty]
      trivial
    · refine ihi (by omega) (by omega) fun n hn => ?_
      have h1 := hd n hn
      have h2 : n ≠ src.depthFrom base o.stop := fun he => hlev (he ▸ hn)
      omega

theorem agrees_of_shown (h : Hides src base stop level atoms) {i j : Nat} {f : Forest Token}
    (hl : Laid src i f j) : f.Shown atoms → f.Agrees atoms := by
  have hnone : ∀ {t : Token} {i : Nat}, t.At src i → Atom.Apart atoms t.start t.stop →
      Atom.startingAt atoms t.start = none := fun ht hap =>
    hap.startingAt_eq_none ht.formed.lt_stop fun a ha => h.span_length_pos ha
  induction hl with
  | nil => intro _; trivial
  | item ht _ _ ih => exact fun ⟨hap, hrest⟩ => ⟨hnone ht hap, ih hrest⟩
  | @group i j b o c inner rest ho hob hi hc hcb hr ihi ihr =>
    rintro ⟨hapo, hapc, hinner, hrest⟩
    refine ⟨hnone ho hapo, hnone hc hapc, ?_, ihr hrest⟩
    cases ha : Atom.startingAt atoms o.stop with
    | none => exact Or.inr ⟨rfl, ihi (hinner ha)⟩
    | some a =>
      have hostop := ho.formed.stop_opener hob
      rw [hostop] at ha hi ⊢
      obtain ⟨hspan, hlt⟩ := h.span_of_startingAt (Laid.groupAt ho hob (hostop ▸ hi) hc hcb) ha
      refine Or.inl ⟨a, rfl, hspan, fun hempty => ?_⟩
      have := (hempty ▸ hi).eq_of_nil
      omega

/-- **A forest less deep than the level agrees with the atoms.** -/
theorem agrees (h : Hides src base stop level atoms) {i j : Nat} {f : Forest Token}
    (hl : Laid src i f j) (hb : base ≤ i) (hj : j ≤ stop)
    (hd : ∀ n ∈ level, src.depthFrom base i < n) : f.Agrees atoms :=
  h.agrees_of_shown hl (h.shown hl hb hj hd)

end Hides

end DiagLayout
