import DiagLayout.Region
import DiagLayout.Proofs.Tokens

/-!
# The regions of a nested stretch

A nested stretch has one region for each of its groups. `Forest.regions` lists them by the order of
the openers, and the walk over the tokens gives exactly this list (`regions_eq_of_laid`). Two
regions are apart, or one lies inside the other and is deeper (`Laid.pairwise_apart_or_inside`).

A group is given by the positions of its two brackets, `Source.GroupAt`; the first determines the
second (`Source.GroupAt.unique`), and every opener of a nested stretch has one. `mem_regions_iff`
says what a region is without a walk: the interior of a group, with the depth of its first position.
-/

namespace DiagLayout

/-! ### Depth along a source -/

namespace Source

variable {src : Source}

/-- How many groups are open at position `i`, counted from the position `base`. -/
def depthFrom (src : Source) (base i : Nat) : Int := depth Glyph.cls (src.window ⟨base, i⟩)

@[simp] theorem depthFrom_self (base : Nat) : src.depthFrom base base = 0 := by simp [depthFrom]

/-- The start of what is folded is less deep than every level there is. -/
theorem depthFrom_self_lt {base : Nat} {level : Option Int} (hl : ∀ n ∈ level, 1 ≤ n) :
    ∀ n ∈ level, src.depthFrom base base < n := by
  intro n hn
  rw [depthFrom_self]
  exact hl n hn

theorem depthFrom_add {base i j : Nat} (hi : base ≤ i) (hj : i ≤ j) :
    src.depthFrom base j = src.depthFrom base i + src.depthFrom i j := by
  rw [depthFrom, depthFrom, depthFrom, ← src.window_append hi hj, depth_append]

theorem mem_window {i j p : Nat} {g : Glyph} (hg : src[p]? = some g) (hi : i ≤ p) (hj : p < j) :
    g ∈ src.window ⟨i, j⟩ := by
  rw [window]
  refine List.mem_iff_getElem?.mpr ⟨p - i, ?_⟩
  rw [List.getElem?_take, if_pos (by simp only; omega), List.getElem?_drop, ← hg]
  congr 1; simp only; omega

/-- The source from `p` on, split after its glyph there. -/
theorem drop_eq_cons {p : Nat} {g : Glyph} (hg : src[p]? = some g) :
    src.drop p = g :: src.drop (p + 1) := by
  obtain ⟨h, rfl⟩ := List.getElem?_eq_some_iff.mp hg
  exact List.drop_eq_getElem_cons h

theorem window_succ {p : Nat} {g : Glyph} (hg : src[p]? = some g) :
    src.window ⟨p, p + 1⟩ = [g] := by
  rw [window, drop_eq_cons hg]
  simp

theorem window_eq_cons {p stop : Nat} {g : Glyph} (hg : src[p]? = some g) (h : p < stop) :
    src.window ⟨p, stop⟩ = g :: src.window ⟨p + 1, stop⟩ := by
  rw [← src.window_append (Nat.le_succ p) h, window_succ hg]
  rfl

/-- **A group**: a bracket opens at `p` and closes at `q`, and all between is nested. -/
def GroupAt (src : Source) (p q : Nat) : Prop :=
  ∃ b o c, src[p]? = some o ∧ o.cls = .opener b ∧ src[q]? = some c ∧ c.cls = .closer b ∧ p < q ∧
    Nested Glyph.cls (src.window ⟨p + 1, q⟩)

theorem GroupAt.lt {p q : Nat} (h : src.GroupAt p q) : p < q := by
  obtain ⟨-, -, -, -, -, -, -, hlt, -⟩ := h
  exact hlt

/-- The walk from the opener of a group ends at its closer. -/
theorem GroupAt.groupEnd?_window {p q stop : Nat} (h : src.GroupAt p q) (hstop : q < stop) :
    groupEnd? (src.window ⟨p, stop⟩) = some (q - p) := by
  obtain ⟨b, o, c, ho, hob, hc, hcb, hlt, hn⟩ := h
  obtain ⟨hq, -⟩ := List.getElem?_eq_some_iff.mp hc
  rw [window_eq_cons ho (by omega), ← src.window_append (show p + 1 ≤ q from hlt) (by omega),
    window_eq_cons hc hstop, groupEnd?_group hob hcb hn, src.length_window _ (Nat.le_of_lt hq)]
  congr 1; simp only; omega

/-- The opener of a group determines its closer. -/
theorem GroupAt.unique {p q q' : Nat} (h : src.GroupAt p q) (h' : src.GroupAt p q') : q = q' := by
  have he := h.groupEnd?_window (show q < q + q' + 1 by omega)
  rw [h'.groupEnd?_window (by omega), Option.some_inj] at he
  have := h.lt
  have := h'.lt
  omega

theorem GroupAt.depthFrom_succ {base p q : Nat} (h : src.GroupAt p q) (hb : base ≤ p) :
    src.depthFrom base (p + 1) = src.depthFrom base p + 1 := by
  obtain ⟨b, o, -, ho, hob, -⟩ := h
  have hone : src.depthFrom p (p + 1) = 1 := by
    rw [depthFrom, window_succ ho, depth_cons, hob, depth_nil]; rfl
  rw [depthFrom_add hb (Nat.le_succ p), hone]

/-- Inside a group the depth is that of its first position or more. -/
theorem GroupAt.depthFrom_le {base p q i : Nat} (h : src.GroupAt p q) (hb : base ≤ p)
    (hi : p < i) (hq : i ≤ q) : src.depthFrom base (p + 1) ≤ src.depthFrom base i := by
  obtain ⟨b, o, c, ho, hob, hc, hcb, hlt, hn⟩ := h
  have hpre : src.window ⟨p + 1, i⟩ = (src.window ⟨p + 1, q⟩).take (i - (p + 1)) := by
    rw [src.take_window (by omega), Nat.add_sub_cancel' hi]
  have hge := hn.depth_take_nonneg (i - (p + 1))
  rw [depthFrom_add (show base ≤ p + 1 by omega) (show p + 1 ≤ i from hi), depthFrom, depthFrom,
    hpre]
  omega

end Source

theorem Token.At.depthFrom_stop {src : Source} {base i : Nat} {t : Token} (h : t.At src i)
    (hb : base ≤ i) : src.depthFrom base t.stop = src.depthFrom base i + t.cls.delta := by
  have hlt := h.formed.lt_stop
  have hs := h.start_eq
  rw [Source.depthFrom_add hb (by omega), ← h.formed.depth_glyphs, h.reads, Token.extent, hs]
  rfl

theorem Token.At.depthFrom_item {src : Source} {base i : Nat} {t : Token} (h : t.At src i)
    (hbr : t.cls.isBracket = false) (hb : base ≤ i) :
    src.depthFrom base t.stop = src.depthFrom base i := by
  rw [h.depthFrom_stop hb, CharClass.delta_of_not_isBracket hbr, Int.add_zero]

theorem Token.At.depthFrom_opener {src : Source} {base i : Nat} {b : Bracket} {o : Token}
    (h : o.At src i) (hob : o.cls = .opener b) (hb : base ≤ i) :
    src.depthFrom base o.stop = src.depthFrom base i + 1 := by
  rw [h.depthFrom_stop hb, hob, CharClass.delta]

theorem Source.Balanced.depthFrom_eq {src : Source} {base i j : Nat} (h : src.Balanced i j)
    (hb : base ≤ i) : src.depthFrom base j = src.depthFrom base i := by
  have hz : src.depthFrom i j = 0 := h.nested.depth_eq_zero
  rw [depthFrom_add hb h.le, hz, Int.add_zero]

/-- Behind a group the depth is that before it. -/
theorem Laid.depthFrom_group {src : Source} {base i : Nat} {b : Bracket} {o c : Token}
    {inner : Forest Token} (ho : o.At src i) (hob : o.cls = .opener b)
    (hi : Laid src o.stop inner c.start) (hc : c.At src c.start) (hcb : c.cls = .closer b)
    (hb : base ≤ i) : src.depthFrom base c.stop = src.depthFrom base i := by
  have hos := ho.start_eq
  have hlt := ho.formed.lt_stop
  have hile := hi.le
  rw [hc.depthFrom_stop (by omega), hi.balanced.depthFrom_eq (by omega),
    ho.depthFrom_opener hob hb, hcb, CharClass.delta]
  omega

/-! ### The regions of a forest -/

namespace Forest

/-- The regions of a forest inside `d` groups, by the order of their openers. -/
def regions (d : Int) : Forest Token → List Region
  | nil => []
  | item _ rest => rest.regions d
  | group o inner c rest =>
    ⟨o.start + 1, c.start, d + 1⟩ :: (inner.regions (d + 1) ++ rest.regions d)

end Forest

theorem nest_opener {t : Token} (h : t.kind = .opener) (opened : List OpenGroup)
    (done : List Region) (ts : List Token) :
    nest opened done (t :: ts) = nest (⟨t.start, done⟩ :: opened) [] ts := by
  conv_lhs => unfold nest
  simp [h]

theorem nest_closer {t : Token} (h : t.kind = .closer) (g : OpenGroup) (outer : List OpenGroup)
    (done : List Region) (ts : List Token) :
    nest (g :: outer) done (t :: ts) =
      nest outer (g.before ++ ⟨g.opener + 1, t.start, outer.length + 1⟩ :: done) ts := by
  conv_lhs => unfold nest
  simp [h]

theorem nest_item {t : Token} (ho : t.kind ≠ .opener) (hc : t.kind ≠ .closer)
    (opened : List OpenGroup) (done : List Region) (ts : List Token) :
    nest opened done (t :: ts) = nest opened done ts := by
  conv_lhs => unfold nest
  cases hk : t.kind <;> simp_all

/-- The walk passes over a forest and adds its regions to those done. -/
theorem nest_forest {src : Source} {i j : Nat} {f : Forest Token} (h : Laid src i f j) :
    ∀ (opened : List OpenGroup) (done : List Region) (ts : List Token),
      nest opened done (f.word ++ ts) = nest opened (done ++ f.regions opened.length) ts := by
  induction h with
  | nil => simp [Forest.word, Forest.regions]
  | @item i j t rest ht hb hr ih =>
    intro opened done ts
    obtain ⟨hko, hkc⟩ := ht.formed.kind_item hb
    rw [Forest.word, List.cons_append, nest_item hko hkc, ih, Forest.regions]
  | @group i j b o c inner rest ho hob hi hc hcb hr ihi ihr =>
    intro opened done ts
    have hko := ho.formed.kind_opener hob
    have hkc := hc.formed.kind_closer hcb
    have hword : (Forest.group o inner c rest).word ++ ts =
        o :: (inner.word ++ c :: (rest.word ++ ts)) := by simp [Forest.word]
    rw [hword, nest_opener hko, ihi, nest_closer hkc, ihr, Forest.regions]
    simp

/-- **The regions of a nested stretch** are those of the forest that covers it. -/
theorem regions_eq_of_laid {src : Source} {e : Extent} {f : Forest Token}
    (hlen : e.stop ≤ src.length) (hw : f.word = src.tokens e) (h : Laid src e.start f e.stop) :
    src.regions e = .ok (f.regions 0) := by
  have hnest := nest_forest h [] [] []
  rw [List.append_nil] at hnest
  calc src.regions e = nest [] [] f.word := by
        rw [Source.regions, Source.readTokens_eq_ok hlen, ← hw]; rfl
    _ = .ok (f.regions 0) := by simpa [nest] using hnest

/-- The region reaches less far than another, at both ends. -/
def Region.Inside (r r' : Region) : Prop := r'.start < r.start ∧ r.stop < r'.stop

instance (r r' : Region) : Decidable (r.Inside r') :=
  inferInstanceAs (Decidable (r'.start < r.start ∧ r.stop < r'.stop))

namespace Laid

variable {src : Source} {i j : Nat} {f : Forest Token}

/-- The regions lie inside what the forest covers, and deeper than the forest. -/
theorem region_bounds (h : Laid src i f j) : ∀ {d : Int} {r : Region}, r ∈ f.regions d →
    (i : Int) < r.start ∧ r.start ≤ r.stop ∧ r.stop < j ∧ d < r.depth := by
  induction h with
  | nil => intro d r hr; simp [Forest.regions] at hr
  | @item i j t rest ht hb hr ih =>
    intro d r hmem
    obtain ⟨h1, h2, h3, h4⟩ := ih (d := d) hmem
    obtain ⟨hs, hlt, -⟩ := item_bounds ht hr
    exact ⟨by omega, h2, h3, h4⟩
  | @group i j b o c inner rest ho hob hi hc hcb hr ihi ihr =>
    intro d r hmem
    obtain ⟨hos, hostop, hile, hlt, hrle⟩ := group_bounds ho hob hi hc hr
    simp only [Forest.regions, List.mem_cons, List.mem_append] at hmem
    rcases hmem with rfl | hmem | hmem
    · exact ⟨by simp only; omega, by simp only; omega, by simp only; omega, by simp only; omega⟩
    · obtain ⟨h1, h2, h3, h4⟩ := ihi hmem
      exact ⟨by omega, h2, by omega, by omega⟩
    · obtain ⟨h1, h2, h3, h4⟩ := ihr hmem
      exact ⟨by omega, h2, h3, h4⟩

/-- **Of two regions the later one starts behind the earlier one, or lies inside it** and is
deeper. -/
theorem pairwise_apart_or_inside (h : Laid src i f j) : ∀ d : Int, (f.regions d).Pairwise
    fun r r' => r.stop < r'.start ∨ (r'.Inside r ∧ r.depth < r'.depth) := by
  induction h with
  | nil => intro d; exact List.Pairwise.nil
  | item _ _ _ ih => intro d; exact ih d
  | @group i j b o c inner rest ho hob hi hc hcb hr ihi ihr =>
    intro d
    obtain ⟨-, hostop, -, hlt, -⟩ := group_bounds ho hob hi hc hr
    refine List.pairwise_cons.mpr ⟨fun r hmem => ?_,
      List.pairwise_append.mpr ⟨ihi (d + 1), ihr d, fun r hmem r' hmem' => Or.inl ?_⟩⟩
    · rcases List.mem_append.mp hmem with hmem | hmem
      · obtain ⟨h1, -, h2, h3⟩ := hi.region_bounds hmem
        exact Or.inr ⟨⟨by simp only; omega, h2⟩, h3⟩
      · obtain ⟨h1, -⟩ := hr.region_bounds hmem
        exact Or.inl (by simp only; omega)
    · obtain ⟨-, -, h1, -⟩ := hi.region_bounds hmem
      obtain ⟨h2, -⟩ := hr.region_bounds hmem'
      omega

/-- Regions of one depth are apart, in the order of the text. -/
theorem pairwise_regions (h : Laid src i f j) (d : Int) :
    (f.regions d).Pairwise fun r r' => r.depth = r'.depth → r.stop < r'.start := by
  refine (h.pairwise_apart_or_inside d).imp fun {r r'} hrel hd => ?_
  exact hrel.resolve_right fun hin => by omega

/-- The regions come in the order of their openers. -/
theorem pairwise_starts (h : Laid src i f j) (d : Int) :
    (f.regions d).Pairwise fun r r' => r.start < r'.start := by
  refine List.Pairwise.imp_of_mem (fun {r r'} hr _ hrel => ?_) (h.pairwise_apart_or_inside d)
  have hle := (h.region_bounds hr).2.1
  rcases hrel with hlt | ⟨⟨hlt, -⟩, -⟩
  · omega
  · exact hlt

/-- The brackets of a group of the forest, as glyphs of the source. -/
theorem groupAt {src : Source} {i : Nat} {b : Bracket} {o c : Token} {inner : Forest Token}
    (ho : o.At src i) (hob : o.cls = .opener b) (hi : Laid src o.stop inner c.start)
    (hc : c.At src c.start) (hcb : c.cls = .closer b) : src.GroupAt o.start c.start := by
  -- the first glyph of a token stands at the start of the token
  have hfirst : ∀ {t : Token} {g : Glyph} {tail : List Glyph}, t.glyphs = src.window t.extent →
      t.glyphs = g :: tail → src[t.start]? = some g := by
    intro t g tail hr hg
    rw [hg, Source.window, Token.extent] at hr
    have h0 : (List.drop t.start src)[0]? = some g := by
      have := congrArg (·[0]?) hr
      simp only [List.getElem?_cons_zero, List.getElem?_take] at this
      split_ifs at this
      exact this.symm
    simpa using h0
  obtain ⟨go, hgo, hgob⟩ := ho.formed.glyphs_opener hob
  obtain ⟨gc, tail, hgc, hgcb, -⟩ := hc.formed.glyphs_closer hcb
  have hstop := ho.formed.stop_opener hob
  refine ⟨b, go, gc, hfirst ho.reads hgo, hgob, hfirst hc.reads hgc, hgcb, ?_, ?_⟩
  · have := hi.le; omega
  · rw [← hstop]; exact hi.balanced.nested

/-- A region of the forest is the interior of a group. -/
theorem exists_groupAt {base : Nat} (h : Laid src i f j) (hb : base ≤ i) : ∀ {r : Region},
    r ∈ f.regions (src.depthFrom base i) → ∃ p q : Nat, src.GroupAt p q ∧ i ≤ p ∧ q < j ∧
      r = ⟨(p : Int) + 1, q, src.depthFrom base (p + 1)⟩ := by
  induction h with
  | nil => intro r hr; simp [Forest.regions] at hr
  | @item i j t rest ht hbr hr ih =>
    intro r hmem
    have hd := ht.depthFrom_item hbr hb
    obtain ⟨hs, hlt, -⟩ := item_bounds ht hr
    obtain ⟨p, q, hg, h1, h2, rfl⟩ := ih (by omega) (by rw [hd]; exact hmem)
    exact ⟨p, q, hg, by omega, h2, rfl⟩
  | @group i j b o c inner rest ho hob hi hc hcb hr ihi ihr =>
    intro r hmem
    obtain ⟨hos, hostop, hile, hlt, hrle⟩ := group_bounds ho hob hi hc hr
    have hdi := ho.depthFrom_opener hob hb
    have hdr := depthFrom_group ho hob hi hc hcb hb
    simp only [Forest.regions, List.mem_cons, List.mem_append] at hmem
    rcases hmem with rfl | hmem | hmem
    · refine ⟨o.start, c.start, groupAt ho hob hi hc hcb, by omega, by omega, ?_⟩
      rw [← hdi, hostop]
    · obtain ⟨p, q, hg, h1, h2, rfl⟩ := ihi (by omega) (by rw [hdi]; exact hmem)
      exact ⟨p, q, hg, by omega, by omega, rfl⟩
    · obtain ⟨p, q, hg, h1, h2, rfl⟩ := ihr (by omega) (by rw [hdr]; exact hmem)
      exact ⟨p, q, hg, by omega, h2, rfl⟩

/-- The interior of a group is a region of the forest. -/
theorem mem_regions_of_groupAt {base p q : Nat} (h : Laid src i f j) (hb : base ≤ i)
    (hg : src.GroupAt p q) (hi : i ≤ p) (hj : p < j) :
    (⟨(p : Int) + 1, q, src.depthFrom base (p + 1)⟩ : Region) ∈
      f.regions (src.depthFrom base i) := by
  -- an opener stands at `p`, so `p` lies in no token that holds none
  obtain ⟨bp, go, -, hgo, hgob, -⟩ := id hg
  have hnot : ∀ {k l : Nat}, (∀ x ∈ src.window ⟨k, l⟩, ∀ b, x.cls ≠ .opener b) → k ≤ p → ¬ p < l :=
    fun hx hk hl => hx go (Source.mem_window hgo hk hl) bp hgob
  induction h with
  | nil => omega
  | @item i j t rest ht hbr hr ih =>
    obtain ⟨hs, hlt, -⟩ := item_bounds ht hr
    have hd := ht.depthFrom_item hbr hb
    have hp : t.stop ≤ p := by
      refine Nat.le_of_not_lt (hnot (k := t.start) ?_ (by omega))
      intro x hx b hxb
      rw [show src.window ⟨t.start, t.stop⟩ = t.glyphs from ht.reads.symm] at hx
      have := ht.formed.glyphs_item hbr x hx
      simp [hxb, CharClass.isBracket] at this
    rw [Forest.regions, ← hd]
    exact ih (by omega) hp hj
  | @group i j b o c inner rest ho hob hil hc hcb hr ihi ihr =>
    obtain ⟨hos, hostop, hile, hlt, -⟩ := group_bounds ho hob hil hc hr
    have hdi := ho.depthFrom_opener hob hb
    have hdr := depthFrom_group ho hob hil hc hcb hb
    simp only [Forest.regions, List.mem_cons, List.mem_append]
    rcases Nat.lt_or_ge p o.stop with h1 | h1
    · left
      obtain rfl : p = o.start := by omega
      rw [hg.unique (groupAt ho hob hil hc hcb), ← hdi, hostop]
    · right
      rcases Nat.lt_or_ge p c.start with h2 | h2
      · left
        rw [← hdi]
        exact ihi (by omega) h1 h2
      · right
        have hp : c.stop ≤ p := by
          refine Nat.le_of_not_lt (hnot (k := c.start) ?_ h2)
          intro x hx b' hxb
          rw [show src.window ⟨c.start, c.stop⟩ = c.glyphs from hc.reads.symm] at hx
          obtain ⟨g, tail, hgl, hgb, htail⟩ := hc.formed.glyphs_closer hcb
          rw [hgl] at hx
          rcases List.mem_cons.mp hx with rfl | hx
          · rw [hxb] at hgb; simp at hgb
          · have := htail x hx
            simp [hxb, CharClass.isBracket] at this
        rw [← hdr]
        exact ihr (by omega) hp hj

/-- **The regions of a stretch without a walk**: the interiors of its groups, with their depths. -/
theorem mem_regions_iff {base : Nat} {r : Region} (h : Laid src i f j) (hb : base ≤ i) :
    r ∈ f.regions (src.depthFrom base i) ↔ ∃ p q : Nat, src.GroupAt p q ∧ i ≤ p ∧ q < j ∧
      r = ⟨(p : Int) + 1, q, src.depthFrom base (p + 1)⟩ := by
  constructor
  · exact h.exists_groupAt hb
  · rintro ⟨p, q, hg, hi, hj, rfl⟩
    exact h.mem_regions_of_groupAt hb hg hi (by have := hg.lt; omega)

end Laid

end DiagLayout
