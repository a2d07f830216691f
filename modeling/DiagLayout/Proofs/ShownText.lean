import DiagLayout.Proofs.Layout
import DiagLayout.Proofs.Overlays
import Mathlib.Algebra.Ring.Int.Defs

/-!
# What is shown of a folded source

A fold puts a placeholder in the place of each span that it hides. `Source.foldedAt` gives the
glyphs shown at a position, and `shownOffset` the offset at which what follows a position is shown.
The two fit: between positions that lie inside no hidden span as many glyphs are shown as the
offsets are apart (`Layable.length_along_foldedAt`). This is also the length that the layout takes a
group to have (`Layable.columns_eq`).
-/

namespace DiagLayout

/-- The glyphs of a placeholder all belong to a symbol. -/
def Placeholder.glyphs (p : Placeholder) : List Glyph := p.text.map fun c => ⟨c, .symbol⟩

@[simp] theorem Placeholder.length_glyphs (p : Placeholder) : p.glyphs.length = p.text.length := by
  simp [glyphs]

/-- The characters by which a placeholder is shorter than what it stands for. -/
def Placeholder.shrinkage (p : Placeholder) : Int := p.span.length - p.text.length

namespace Source

/-- The glyphs shown at a position: placeholders of spans that start there, then the glyph itself
unless it is hidden. -/
def foldedAt (src : Source) (hidden : List Placeholder) (o : Nat) : List Glyph :=
  (hidden.filter fun p => p.span.start == (o : Int)).flatMap Placeholder.glyphs ++
    if isHidden hidden o then [] else src[o]?.toList

/-- **The folded source**: each hidden span is replaced by its placeholder. -/
def folded (src : Source) (hidden : List Placeholder) : Source :=
  along (src.foldedAt hidden) 0 src.length

end Source

/-- **The offset at which a position is shown**: less by what the spans that end up to it shrink. -/
def shownOffset (hidden : List Placeholder) (o : Int) : Int :=
  o - ((hidden.filter fun p => p.span.stop ≤ o).map Placeholder.shrinkage).sum

/-- The instruction at the offset where its own is shown. -/
def Instruction.shown (hidden : List Placeholder) (i : Instruction) : Instruction :=
  ⟨shownOffset hidden i.offset, i.indent⟩

/-- No hidden span starts before the position and ends behind it. -/
def Free (hidden : List Placeholder) (x : Nat) : Prop :=
  ∀ p ∈ hidden, (x : Int) ≤ p.span.start ∨ p.span.stop ≤ x

section Apart

variable {hidden : List Placeholder} {i j x : Nat}

theorem apart_atoms_iff : Atom.Apart (hidden.map Placeholder.atom) i j ↔
    ∀ p ∈ hidden, p.span.stop ≤ i ∨ (j : Int) ≤ p.span.start := by
  unfold Atom.Apart
  rw [List.forall_mem_map]
  rfl

theorem free_of_apart (h : Atom.Apart (hidden.map Placeholder.atom) i j) (hi : i ≤ x)
    (hj : x ≤ j) : Free hidden x := by
  intro p hp
  have := apart_atoms_iff.mp h p hp
  omega

theorem isHidden_iff {o : Nat} : isHidden hidden o = true ↔
    ∃ p ∈ hidden, p.span.start ≤ o ∧ o < p.span.stop := by
  unfold isHidden Span.contains
  simp

theorem isHidden_eq_false (h : Atom.Apart (hidden.map Placeholder.atom) i j) (hi : i ≤ x)
    (hj : x < j) : isHidden hidden x = false := by
  rw [← Bool.not_eq_true, isHidden_iff]
  rintro ⟨p, hp, h1, h2⟩
  have := apart_atoms_iff.mp h p hp
  omega

/-- No span starts or ends in between, so the offsets stay as far apart as they are. -/
theorem shownOffset_apart (hne : ∀ p ∈ hidden, p.span.start < p.span.stop)
    (h : Atom.Apart (hidden.map Placeholder.atom) i j) (hij : i ≤ j) :
    shownOffset hidden j = shownOffset hidden i + (j - i) := by
  have hfilter : (hidden.filter fun p => p.span.stop ≤ (j : Int)) =
      hidden.filter fun p => p.span.stop ≤ (i : Int) := by
    refine List.filter_congr fun p hp => ?_
    have h1 := hne p hp
    have h2 := apart_atoms_iff.mp h p hp
    simp only [decide_eq_decide]
    omega
  unfold shownOffset
  rw [hfilter]
  omega

variable (src : Source)

/-- A glyph apart from the hidden spans is shown as it is. -/
theorem foldedAt_apart (h : Atom.Apart (hidden.map Placeholder.atom) i j)
    (hne : ∀ p ∈ hidden, p.span.start < p.span.stop) (hi : i ≤ x) (hj : x < j) :
    src.foldedAt hidden x = src[x]?.toList := by
  have hno : (hidden.filter fun p => p.span.start == (x : Int)) = [] := by
    refine List.filter_eq_nil_iff.mpr fun p hp => ?_
    have h1 := hne p hp
    have h2 := apart_atoms_iff.mp h p hp
    simp only [beq_iff_eq]
    omega
  unfold Source.foldedAt
  rw [hno, isHidden_eq_false h hi hj]
  rfl

theorem along_foldedAt_apart (h : Atom.Apart (hidden.map Placeholder.atom) i j)
    (hne : ∀ p ∈ hidden, p.span.start < p.span.stop) :
    along (src.foldedAt hidden) i j = src.window ⟨i, j⟩ := by
  rw [along_congr fun o => foldedAt_apart src h hne, along_getElem, Source.window, List.drop_take]

/-- The glyphs shown at a position have the text of its pieces, line breaks apart. -/
theorem text_foldedAt (hidden : List Placeholder) (o : Nat) : Glyph.text (src.foldedAt hidden o) =
    (piecesAt src.text [] hidden o).flatMap Piece.shown := by
  have hplaceholder : ∀ p : Placeholder, p.glyphs.map Glyph.char = p.text := by
    intro p
    simp [Placeholder.glyphs, Function.comp_def]
  have hkept : ∀ u : Text, (u.map Piece.kept).flatMap Piece.shown = u :=
    flatMap_kept fun _ => rfl
  unfold piecesAt keptAt Source.foldedAt Glyph.text Source.text Glyph.text
  simp only [List.filter_nil, List.map_nil, List.nil_append, List.flatMap_append,
    hkept, List.map_append, List.map_flatMap, hplaceholder, List.flatMap_map, Piece.shown,
    List.getElem?_map]
  split_ifs
  · rfl
  · cases src[o]? <;> rfl

end Apart

section Shrinkage

variable {hidden : List Placeholder}

/-- Of the spans that end up to the end of `p`, only `p` does not end up to its start. -/
theorem sum_shrinkage_stop (hapart : hidden.Pairwise fun p p' => p.span.stop < p'.span.start)
    (hne : ∀ p ∈ hidden, p.span.start < p.span.stop) {p : Placeholder} (hp : p ∈ hidden) :
    ((hidden.filter fun p' => p'.span.stop ≤ p.span.stop).map Placeholder.shrinkage).sum =
      ((hidden.filter fun p' => p'.span.stop ≤ p.span.start).map Placeholder.shrinkage).sum +
        p.shrinkage := by
  induction hidden with
  | nil => cases hp
  | cons q rest ih =>
    obtain ⟨hq, hapart⟩ := List.pairwise_cons.mp hapart
    have hqlt := hne q List.mem_cons_self
    rcases List.mem_cons.mp hp with rfl | hp
    · -- the spans behind `p` do not end so early
      have hbehind : ∀ x ≤ p.span.stop, rest.filter (fun p' => p'.span.stop ≤ x) = [] := by
        intro x hx
        refine List.filter_eq_nil_iff.mpr fun p' hp' => ?_
        have h1 := hq p' hp'
        have h2 := hne p' (List.mem_cons_of_mem _ hp')
        simp only [decide_eq_true_eq]
        omega
      rw [List.filter_cons_of_pos (by simp), List.filter_cons_of_neg (by simp; omega),
        hbehind _ (Int.le_refl _), hbehind _ (by omega)]
      simp
    · have h1 := hq p hp
      have h2 := hne p (List.mem_cons_of_mem _ hp)
      have ih := ih hapart (fun p' hp' => hne p' (List.mem_cons_of_mem _ hp')) hp
      rw [List.filter_cons_of_pos (by simp; omega), List.filter_cons_of_pos (by simp; omega),
        List.map_cons, List.map_cons, List.sum_cons, List.sum_cons, ih]
      omega

/-- The spans inside a stretch are those that end up to its end, without those that end up to its
start. -/
theorem foldl_shrinkage (hne : ∀ p ∈ hidden, p.span.start < p.span.stop) {x y : Nat}
    (hx : Free hidden x) (hxy : x ≤ y) (n : Int) :
    (hidden.map Placeholder.atom).foldl (fun (n : Int) (a : Atom) =>
      if (x : Int) ≤ a.span.start ∧ a.span.stop ≤ y then n - (a.span.length - a.width) else n) n =
        n - ((hidden.filter fun p => p.span.stop ≤ (y : Int)).map Placeholder.shrinkage).sum +
          ((hidden.filter fun p => p.span.stop ≤ (x : Int)).map Placeholder.shrinkage).sum := by
  induction hidden generalizing n with
  | nil => simp
  | cons p rest ih =>
    have ih := ih (fun p' hp' => hne p' (List.mem_cons_of_mem _ hp'))
      fun p' hp' => hx p' (List.mem_cons_of_mem _ hp')
    have h1 := hne p List.mem_cons_self
    have hspan : p.atom.span = p.span := rfl
    have hshrink : p.atom.span.length - p.atom.width = p.shrinkage := rfl
    rw [List.map_cons, List.foldl_cons, ih, hshrink, hspan, List.filter_cons, List.filter_cons]
    rcases hx p List.mem_cons_self with h2 | h2
    · have h3 : ¬ p.span.stop ≤ (x : Int) := by omega
      by_cases h4 : p.span.stop ≤ (y : Int)
      · simp [h2, h3, h4]
        omega
      · simp [h3, h4]
    · have h3 : ¬ (x : Int) ≤ p.span.start := by omega
      have h4 : p.span.stop ≤ (y : Int) := by omega
      simp [h2, h3, h4]
      omega

end Shrinkage

namespace Layable

variable {n : Nat} {instructions : List Instruction} {hidden : List Placeholder}
  (h : Layable n instructions hidden)
include h

theorem span_lt : ∀ p ∈ hidden, p.span.start < p.span.stop := fun p hp => (h.inside p hp).2.1

theorem placeholderAt_start {p : Placeholder} (hp : p ∈ hidden) :
    placeholderAt hidden p.span.start = some p := by
  cases hat : placeholderAt hidden p.span.start with
  | none => exact absurd rfl (placeholderAt_eq_none hat p hp)
  | some p' =>
    obtain ⟨hp', hs⟩ := placeholderAt_eq_some hat
    rw [h.eq_of_start hp' hp hs]

/-- A token that is apart from the spans is shown. -/
theorem along_foldedAt_token {src : Source} {t : Token} {i : Nat} (ht : t.At src i)
    (hap : Atom.Apart (hidden.map Placeholder.atom) t.start t.stop) :
    along (src.foldedAt hidden) i t.stop = t.glyphs := by
  rw [← ht.start_eq, along_foldedAt_apart src hap h.span_lt, ht.reads]
  rfl

/-- Of a hidden span its placeholder is shown, at its start. -/
theorem along_foldedAt_span (src : Source) {p : Placeholder} (hp : p ∈ hidden) {i j : Nat}
    (hi : p.span.start = i) (hj : p.span.stop = j) :
    along (src.foldedAt hidden) i j = p.glyphs := by
  have hlt := h.span_lt p hp
  have hcover : ∀ o : Nat, i ≤ o → o < j → isHidden hidden o = true := by
    intro o h1 h2
    exact isHidden_iff.mpr ⟨p, hp, by omega, by omega⟩
  have hfirst : src.foldedAt hidden i = p.glyphs := by
    unfold Source.foldedAt
    rw [hcover i (Nat.le_refl i) (by omega), ← hi, h.filter_start, h.placeholderAt_start hp]
    simp
  have hrest : along (src.foldedAt hidden) (i + 1) j = [] := by
    refine along_eq_nil fun o h1 h2 => ?_
    have hno : (hidden.filter fun p' => p'.span.start == (o : Int)) = [] := by
      refine List.filter_eq_nil_iff.mpr fun p' hp' hs => ?_
      rw [beq_iff_eq] at hs
      have hne : p ≠ p' := by rintro rfl; omega
      have h3 := h.span_lt p' hp'
      rcases h.apart_of_ne hp hp' hne with hap | hap <;> omega
    unfold Source.foldedAt
    rw [hno, hcover o (by omega) h2]
    rfl
  rw [along_succ (by omega), hfirst, hrest, List.append_nil]

/-- Behind a hidden span its placeholder has been shown. -/
theorem shownOffset_stop {p : Placeholder} (hp : p ∈ hidden) :
    shownOffset hidden p.span.stop = shownOffset hidden p.span.start + p.text.length := by
  unfold shownOffset
  rw [sum_shrinkage_stop h.apart h.span_lt hp, Placeholder.shrinkage, Span.length]
  omega

/-- **The length of a stretch in the layout** is that of what is shown of it. -/
theorem columns_eq {x y : Nat} (hx : Free hidden x) (hxy : x ≤ y) :
    Atom.columns (hidden.map Placeholder.atom) ⟨x, y⟩ =
      shownOffset hidden y - shownOffset hidden x := by
  unfold Atom.columns shownOffset
  rw [foldl_shrinkage h.span_lt hx hxy]
  simp only
  omega

/-- **As many glyphs are shown as the offsets are apart.** -/
theorem length_along_foldedAt (src : Source) {j : Nat} (hj : Free hidden j)
    (hlen : j ≤ src.length) : ∀ {i : Nat}, Free hidden i → i ≤ j →
      ((along (src.foldedAt hidden) i j).length : Int) =
        shownOffset hidden j - shownOffset hidden i := by
  intro i
  induction hk : j - i using Nat.strong_induction_on generalizing i with
  | h k ih =>
    intro hi hij
    rcases Nat.eq_or_lt_of_le hij with rfl | hij
    · rw [along_eq_nil fun p h1 h2 => by omega]
      simp
    cases hat : placeholderAt hidden i with
    | some p =>
      -- a hidden span starts here, and all of it lies before `j`
      obtain ⟨hp, hs⟩ := placeholderAt_eq_some hat
      have h1 := h.span_lt p hp
      have h2 := hj p hp
      obtain ⟨m, hm⟩ : ∃ m : Nat, p.span.stop = m := ⟨p.span.stop.toNat, by omega⟩
      have hfree : Free hidden m := by
        intro p' hp'
        by_cases heq : p' = p
        · exact Or.inr (by rw [heq]; omega)
        · rcases h.apart_of_ne hp' hp heq with hap | hap <;> omega
      have hoff := h.shownOffset_stop hp
      rw [hs, hm] at hoff
      rw [along_append (show i ≤ m by omega) (show m ≤ j by omega), List.length_append,
        h.along_foldedAt_span src hp hs hm, Placeholder.length_glyphs]
      have := ih (j - m) (by omega) rfl hfree (by omega)
      omega
    | none =>
      have hno := placeholderAt_eq_none hat
      have hap : Atom.Apart (hidden.map Placeholder.atom) i (i + 1) := by
        refine apart_atoms_iff.mpr fun p hp => ?_
        have h1 := hi p hp
        have h2 := hno p hp
        omega
      have hoff := shownOffset_apart h.span_lt hap (Nat.le_succ i)
      have hone : (src.window ⟨i, i + 1⟩).length = 1 := by
        rw [src.length_window _ (by simp only; omega)]
        simp
      rw [along_append (show i ≤ i + 1 by omega) hij, List.length_append,
        along_foldedAt_apart src hap h.span_lt, hone]
      have := ih (j - (i + 1)) (by omega) rfl (free_of_apart hap (Nat.le_succ i) (Nat.le_refl _))
        hij
      omega

/-- In front of all hidden spans every position is shown where it is. -/
theorem shownOffset_before {x : Nat} (hx : ∀ p ∈ hidden, (x : Int) ≤ p.span.start) :
    shownOffset hidden x = x := by
  have hfilter : (hidden.filter fun p => p.span.stop ≤ (x : Int)) = [] := by
    refine List.filter_eq_nil_iff.mpr fun p hp => ?_
    have h1 := hx p hp
    have h2 := h.span_lt p hp
    simp only [decide_eq_true_eq]
    omega
  unfold shownOffset
  rw [hfilter]
  simp

theorem shownOffset_nonneg {x : Nat} (hx : Free hidden x) : 0 ≤ shownOffset hidden x := by
  have hfree : Free hidden 0 := fun p hp => Or.inl (h.inside p hp).1
  have hzero := h.shownOffset_before (x := 0) fun p hp => (h.inside p hp).1
  have hlen := h.length_along_foldedAt (List.replicate x default) hx (by simp) hfree (Nat.zero_le x)
  omega

end Layable

/-! ### Forests under placeholders -/

theorem startingAt_atoms (hidden : List Placeholder) (i : Nat) :
    Atom.startingAt (hidden.map Placeholder.atom) i =
      (placeholderAt hidden i).map Placeholder.atom := by
  unfold Atom.startingAt placeholderAt
  rw [List.filter_map, List.getLast?_map]
  rfl

/-- The tokens of a forest are apart from the hidden spans, or inside a group that is hidden whole.
-/
def Forest.Folds (hidden : List Placeholder) : Forest Token → Prop
  | nil => True
  | item t rest =>
    Atom.Apart (hidden.map Placeholder.atom) t.start t.stop ∧ rest.Folds hidden
  | group o inner c rest =>
    Atom.Apart (hidden.map Placeholder.atom) o.start o.stop ∧
      Atom.Apart (hidden.map Placeholder.atom) c.start c.stop ∧
      (match placeholderAt hidden o.stop with
        | some p => p.span = ⟨o.stop, c.start⟩
        | none => inner.Folds hidden) ∧ rest.Folds hidden

theorem Hides.folds {src : Source} {base stop : Nat} {level : Option Int}
    {hidden : List Placeholder} (h : Hides src base stop level (hidden.map Placeholder.atom))
    {i j : Nat} {f : Forest Token} (hl : Laid src i f j) :
    f.Shown (hidden.map Placeholder.atom) → f.Folds hidden := by
  induction hl with
  | nil => intro _; trivial
  | item _ _ _ ih => exact fun ⟨hap, hrest⟩ => ⟨hap, ih hrest⟩
  | @group i j b o c inner rest ho hob hi hc hcb hr ihi ihr =>
    rintro ⟨hapo, hapc, hinner, hrest⟩
    refine ⟨hapo, hapc, ?_, ihr hrest⟩
    rw [startingAt_atoms] at hinner
    cases hat : placeholderAt hidden o.stop with
    | none => exact ihi (hinner (by rw [hat]; rfl))
    | some p =>
      have hostop := ho.formed.stop_opener hob
      have hstart : Atom.startingAt (hidden.map Placeholder.atom) (o.start + 1) = some p.atom := by
        rw [startingAt_atoms, ← hostop, hat]
        rfl
      have hspan := (h.span_of_startingAt (Laid.groupAt ho hob hi hc hcb) hstart).1
      rw [← hostop] at hspan
      exact hspan

/-- The instructions of a layout and the placeholders of the fold can be laid over the text. -/
theorem layable_of_fold {src : Source} {i j : Nat} {f : Forest Token} (hl : Laid src i f j)
    (hlen : j ≤ src.length) {level : Option Int} {placeholder : Text} {folding : Folding}
    (hfold : fold (f.regions 0) level placeholder = .ok folding) {indent : Int}
    {is : List Instruction} (hplaced : Placed folding.atoms i j indent is) :
    Layable src.length is folding.placeholders := by
  obtain ⟨hapart, hbounds⟩ := placeholders_apart hl hfold
  refine ⟨hplaced.increasing, fun ins hins => ?_, hapart, fun p hp => ?_, fun ins hins p hp => ?_⟩
  · have := hplaced.bounds ins hins
    omega
  · have := hbounds p hp
    omega
  · have := hplaced.clear ins hins p.atom (List.mem_map_of_mem hp)
    exact this.imp_right Int.le_of_lt

/-- **A nested stretch is folded and laid out.** Its forest goes with what is hidden, and its layout
breaks the lines of the forest. -/
theorem exists_folding {src : Source} {e : Extent} (he : src.Balanced e.start e.stop)
    (hlen : e.stop ≤ src.length) {level : Option Int} (hlevel : ∀ n ∈ level, 1 ≤ n)
    (placeholder : Text) : ∃ (f : Forest Token) (folding : Folding),
      f.word = src.tokens e ∧ Laid src e.start f e.stop ∧ src.regions e = .ok (f.regions 0) ∧
      fold (f.regions 0) level placeholder = .ok folding ∧ f.Shown folding.atoms ∧
      f.Folds folding.placeholders ∧ ∀ width unit indent,
        layOut src e width unit indent folding.atoms =
          .ok (f.breaks ⟨folding.atoms, width, unit⟩ ⟨false, indent⟩ indent) := by
  obtain ⟨f, hw, hl⟩ := exists_laid he hlen
  obtain ⟨folding, hfold⟩ := exists_fold (f.regions 0) placeholder hlevel
  have hides : Hides src e.start e.stop level folding.atoms := hides_of_fold hl hfold
  have hshown := hides.shown hl (Nat.le_refl _) (Nat.le_refl _) (Source.depthFrom_self_lt hlevel)
  have hsize : ∀ a ∈ folding.atoms, 0 ≤ a.span.length :=
    fun a ha => Int.le_of_lt (hides.span_length_pos ha)
  refine ⟨f, folding, hw, hl, regions_eq_of_laid hlen hw hl, hfold, hshown, hides.folds hl hshown,
    fun width unit indent => ?_⟩
  exact layOut_eq_breaks ⟨folding.atoms, width, unit⟩ hsize hlen hw hl
    (hides.agrees_of_shown hl hshown) indent

end DiagLayout
