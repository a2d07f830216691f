import DiagLayout.Proofs.CleanCuts
import DiagLayout.Proofs.Layout

/-!
# Where lines are broken

A layout breaks lines behind openers, and behind separators with all the spaces after them
(`Source.BreakSite`). Outside all groups it breaks none: every break lies in a group that is broken,
so before the closer of that group and one unit further in.

* `Source.behindSeparator_of_mem`: a separator token ends behind all the spaces;
* `Laid.mem_breaks_whole`: the breaks of a forest in a frame that is not broken;
* `exists_layOut_sites`: both together, for the layout of a stretch.
-/

namespace DiagLayout

/-! ### Runs of one kind -/

section Runs

variable {k : Kind} {gs : List Glyph}

theorem kind_of_lt_runLength {n : Nat} (h : n < runLength k gs) :
    gs[n]?.map Glyph.kind = some k := by
  have hn : n < gs.length := Nat.lt_of_lt_of_le h (runLength_le k gs)
  have hmem : gs[n] ∈ gs.take (runLength k gs) :=
    List.mem_take_iff_getElem.mpr ⟨n, by omega, rfl⟩
  rw [take_runLength] at hmem
  rw [List.getElem?_eq_getElem hn]
  simpa [Glyph.isKind] using List.mem_takeWhile_imp hmem

theorem kind_runLength_ne : gs[runLength k gs]?.map Glyph.kind ≠ some k := by
  have hhead := List.head?_dropWhile_not (Glyph.isKind k) gs
  have hdrop : gs.drop (runLength k gs) = gs.dropWhile (Glyph.isKind k) := by
    nth_rewrite 2 [← List.takeWhile_append_dropWhile (p := Glyph.isKind k) (l := gs)]
    exact List.drop_left
  rw [← hdrop, List.head?_drop] at hhead
  intro hkind
  obtain ⟨g, hg, hgk⟩ := Option.map_eq_some_iff.mp hkind
  rw [hg] at hhead
  simp [Glyph.isKind, hgk] at hhead

/-- The glyphs of a token are of its kind, but for spaces. -/
theorem kind_of_mem_tail {x : Glyph} (hx : x ∈ gs.take (tokenTail k gs)) :
    x.kind = .space ∨ x.kind = k := by
  have hrun : ∀ {k' : Kind} {l : List Glyph}, x ∈ l.take (runLength k' l) → x.kind = k' := by
    intro k' l hl
    rw [take_runLength] at hl
    simpa [Glyph.isKind] using List.mem_takeWhile_imp hl
  cases k with
  | separator =>
    rw [tokenTail, List.take_add] at hx
    rcases List.mem_append.mp hx with hx | hx
    · exact Or.inr (hrun hx)
    · exact Or.inl (hrun hx)
  | opener => simp [tokenTail] at hx
  | closer =>
    simp only [tokenTail] at hx
    split_ifs at hx
    · exact Or.inl (hrun hx)
    · simp at hx
  | space => exact Or.inl (hrun hx)
  | symbol => exact Or.inr (hrun hx)

end Runs

/-! ### Separator tokens -/

/-- A token of a list of glyphs starts where an earlier one stops, and takes what belongs to its
first glyph. -/
theorem exists_of_mem_tokensFrom (n : Nat) : ∀ {start : Nat} {gs : List Glyph} {t : Token},
    gs.length ≤ n → t ∈ tokensFrom start gs → ∃ d g rest, gs.drop d = g :: rest ∧
      t = ⟨g.kind, start + d, g :: rest.take (tokenTail g.kind rest)⟩ := by
  induction n with
  | zero =>
    intro start gs t hn ht
    obtain rfl : gs = [] := List.eq_nil_of_length_eq_zero (by omega)
    simp [tokensFrom] at ht
  | succ n ih =>
    intro start gs t hn ht
    rcases gs with _ | ⟨g, gs⟩
    · simp [tokensFrom] at ht
    rw [tokensFrom] at ht
    rcases List.mem_cons.mp ht with rfl | ht
    · exact ⟨0, g, gs, rfl, rfl⟩
    · obtain ⟨d, g', rest, hd, rfl⟩ := ih (by simp at hn ⊢; omega) ht
      refine ⟨tokenTail g.kind gs + d + 1, g', rest, ?_, ?_⟩
      · rw [List.drop_succ_cons, ← hd, List.drop_drop]
      · congr 1
        omega

namespace Source

variable {src : Source} {e : Extent} {t : Token}

/-- The position is behind a separator and all the spaces that follow it. -/
def BehindSeparator (src : Source) (x : Nat) : Prop :=
  ∃ k : Nat, k < x ∧ src.kind? k = some .separator ∧ src.kind? (k + 1 : Nat) ≠ some .separator ∧
    (∀ y : Nat, k < y → y < x → src.kind? y = some .space) ∧ src.kind? x ≠ some .space

/-- **Where a layout may break a line**: behind an opener, or behind separators and spaces. -/
def BreakSite (src : Source) (x : Nat) : Prop :=
  src.kind? ((x : Int) - 1) = some .opener ∨ src.BehindSeparator x

/-- A symbol is not cut at a break. -/
theorem BreakSite.not_runsOver {x : Nat} (h : src.BreakSite x) : ¬ src.RunsOver .symbol x := by
  rintro ⟨hbefore, -⟩
  rcases h with hopen | ⟨k, hlt, hsep, -, hspaces, -⟩
  · rw [hopen] at hbefore
    cases hbefore
  · have hcast : ((x : Int) - 1) = (x - 1 : Nat) := by omega
    rw [hcast] at hbefore
    by_cases hk : k = x - 1
    · rw [hk, hbefore] at hsep
      cases hsep
    · rw [hspaces (x - 1) (by omega) (by omega)] at hbefore
      cases hbefore

theorem kind?_natCast (src : Source) (x : Nat) : src.kind? x = src[x]?.map Glyph.kind := by
  unfold kind?
  rw [if_neg (by omega), Int.toNat_natCast]

theorem kind?_window {x : Nat} (hx : e.start + x < e.stop) :
    src.kind? (e.start + x : Nat) = (src.window e)[x]?.map Glyph.kind := by
  rw [kind?_natCast, window, List.getElem?_take, if_pos (by omega), List.getElem?_drop]

/-- The glyphs of a token of a stretch. -/
theorem kind_of_mem_tokens (ht : t ∈ src.tokens e) {x : Glyph} (hx : x ∈ t.glyphs) :
    x.kind = .space ∨ x.kind = t.kind := by
  obtain ⟨d, g, rest, -, rfl⟩ := exists_of_mem_tokensFrom _ (Nat.le_refl _) ht
  rcases List.mem_cons.mp hx with rfl | hx
  · exact Or.inr rfl
  · exact kind_of_mem_tail hx

/-- **A separator token takes all the spaces behind it**, where the stretch goes on or a group
closes. -/
theorem behindSeparator_of_mem (ht : t ∈ src.tokens e) (hk : t.kind = .separator)
    (hle : t.stop ≤ e.stop) (hstop : t.stop < e.stop ∨ src.kind? e.stop = some .closer) :
    src.BehindSeparator t.stop := by
  obtain ⟨d, g, rest, hd, rfl⟩ := exists_of_mem_tokensFrom _ (Nat.le_refl _) ht
  have hg : g.kind = .separator := hk
  set seps := runLength .separator rest with hseps
  set spaces := runLength .space (rest.drop seps) with hspaces
  have htail : tokenTail g.kind rest = seps + spaces := by rw [hg]; rfl
  have hend : (Token.mk g.kind (e.start + d) (g :: rest.take (tokenTail g.kind rest))).stop =
      e.start + d + (seps + spaces + 1) := by
    have := tokenTail_le g.kind rest
    simp only [Token.stop, List.length_cons, List.length_take]
    omega
  rw [hend] at hle hstop ⊢
  -- the glyphs of the stretch from the token on
  have hat : ∀ n, e.start + d + n < e.stop →
      src.kind? (e.start + d + n : Nat) = (g :: rest)[n]?.map Glyph.kind := by
    intro n hn
    rw [Nat.add_assoc, kind?_window (by omega), ← hd, List.getElem?_drop]
  have hnot : ∀ {n : Nat} {k : Kind}, n ≤ seps + spaces + 1 → k ≠ .closer →
      (g :: rest)[n]?.map Glyph.kind ≠ some k → src.kind? (e.start + d + n : Nat) ≠ some k := by
    intro n k hn hk hne
    by_cases hin : e.start + d + n < e.stop
    · rwa [hat n hin]
    · rcases hstop with hstop | hstop
      · omega
      · rw [show e.start + d + n = e.stop by omega, hstop]
        exact fun h => hk (Option.some.inj h).symm
  refine ⟨e.start + d + seps, by omega, ?_, ?_, fun y hy hy' => ?_, ?_⟩
  · rw [hat seps (by omega)]
    rcases hcase : seps with _ | n
    · rw [List.getElem?_cons_zero, Option.map_some, hg]
    · rw [List.getElem?_cons_succ]
      exact kind_of_lt_runLength (show n < runLength .separator rest by omega)
  · exact hnot (n := seps + 1) (by omega) (by simp) kind_runLength_ne
  · obtain ⟨n, rfl⟩ : ∃ n, y = e.start + d + (seps + n + 1) :=
      ⟨y - (e.start + d + seps + 1), by omega⟩
    rw [hat _ (by omega), List.getElem?_cons_succ, ← List.getElem?_drop]
    exact kind_of_lt_runLength (show n < runLength .space (rest.drop seps) by omega)
  · refine hnot (Nat.le_refl _) (by simp) ?_
    rw [List.getElem?_cons_succ, ← List.getElem?_drop]
    exact kind_runLength_ne

theorem kind?_before_opener (ht : t ∈ src.tokens e) (hk : t.kind = .opener)
    (hlt : t.stop < e.stop) : src.kind? ((t.stop : Int) - 1) = some .opener := by
  obtain ⟨d, g, rest, hd, rfl⟩ := exists_of_mem_tokensFrom _ (Nat.le_refl _) ht
  have hg : g.kind = .opener := hk
  have hstop : (Token.mk g.kind (e.start + d) (g :: rest.take (tokenTail g.kind rest))).stop =
      e.start + d + 1 := by
    rw [hg]
    rfl
  rw [hstop] at hlt ⊢
  rw [show ((e.start + d + 1 : Nat) : Int) - 1 = (e.start + d : Nat) by omega,
    kind?_window (Nat.lt_of_succ_lt hlt), ← List.head?_drop, hd, List.head?_cons, Option.map_some,
    hg]

end Source

/-! ### The breaks of a layout -/

theorem Frame.enter_cases (top : Frame) (unit space length : Int) :
    top.enter unit space length = ⟨false, top.indent⟩ ∨
      top.enter unit space length = ⟨true, top.indent + unit⟩ := by
  unfold enter
  split_ifs
  · exact Or.inl rfl
  · exact Or.inr rfl

section Breaks

variable {src : Source} {i j : Nat} {f : Forest Token} {page : Page}

/-- A break point is behind a separator or an opener. -/
theorem Laid.exists_of_mem_breakPoints {atoms : List Atom} (h : Laid src i f j) : ∀ {x : Nat},
    x ∈ f.breakPoints atoms →
      ∃ t ∈ f.word, x = t.stop ∧ (t.kind = .separator ∨ t.kind = .opener) := by
  induction h with
  | nil =>
    intro x hx
    cases hx
  | @item i j t rest ht hb hr ih =>
    intro x hx
    rcases Forest.mem_breakPoints_item.mp hx with ⟨hk, rfl⟩ | hx
    · exact ⟨t, by simp [Forest.word], rfl, Or.inl hk⟩
    · obtain ⟨t', ht', hstop⟩ := ih hx
      exact ⟨t', by simp [Forest.word, ht'], hstop⟩
  | @group i j b o c inner rest ho hob hi hc hcb hr ihi ihr =>
    intro x hx
    rcases Forest.mem_breakPoints_group.mp hx with rfl | ⟨-, hx⟩ | hx
    · exact ⟨o, by simp [Forest.word], rfl, Or.inr (ho.formed.kind_opener hob)⟩
    · obtain ⟨t', ht', hstop⟩ := ihi hx
      exact ⟨t', by simp [Forest.word, ht'], hstop⟩
    · obtain ⟨t', ht', hstop⟩ := ihr hx
      exact ⟨t', by simp [Forest.word, ht'], hstop⟩

/-- **Outside all groups no line is broken.** In a frame that is not broken every break lies in a
group, and is one unit further in. -/
theorem Laid.mem_breaks_whole (h : Laid src i f j) (hu : 0 ≤ page.unit) :
    ∀ {top : Frame} {col : Int}, top.broken = false → ∀ ins ∈ f.breaks page top col,
      ins.offset < j ∧ top.indent + page.unit ≤ ins.indent := by
  induction h with
  | nil =>
    intro top col _ ins hins
    cases hins
  | item ht hb hr ih =>
    intro top col hwhole ins hins
    rcases Forest.mem_breaks_item.mp hins with ⟨-, hins⟩ | hins
    · rw [(Frame.mem_breakAt.mp hins).1] at hwhole
      cases hwhole
    · exact ih hwhole ins hins
  | @group i j b o c inner rest ho hob hi hc hcb hr ihi ihr =>
    intro top col hwhole ins hins
    obtain ⟨-, -, hile, hlt, hle⟩ := Laid.group_bounds ho hob hi hc hr
    by_cases hrest : ins ∈ rest.breaks page top
        (Forest.pastInterior page top col o inner c + c.glyphs.length)
    · exact ihr hwhole ins hrest
    have hgroup : ins ∈ (page.frame top col o c).breakAt o.stop ∨
        ins ∈ inner.breaks page (page.frame top col o c) (page.inside top col o c) := by
      rcases Forest.mem_breaks_group.mp hins with hins | ⟨-, hins⟩ | hins
      · exact Or.inl hins
      · exact Or.inr hins
      · exact absurd hins hrest
    rcases Frame.enter_cases top page.unit (page.width - (col + o.glyphs.length))
      (Atom.columns page.atoms ⟨o.stop, c.start + 1⟩) with hframe | hframe
    all_goals rw [← Page.frame] at hframe; rw [hframe] at hgroup
    · rcases hgroup with hins | hins
      · cases (Frame.mem_breakAt.mp hins).1
      · obtain ⟨hlast, hindent⟩ := ihi rfl ins hins
        exact ⟨by omega, hindent⟩
    · rcases hgroup with hins | hins
      · obtain ⟨-, rfl⟩ := Frame.mem_breakAt.mp hins
        exact ⟨by simp only; omega, Int.le_refl _⟩
      · obtain ⟨x, -, hoffset, hx⟩ := hi.mem_breaks hins
        exact ⟨by omega, inner.le_indent_breaks hu ins hins⟩

end Breaks

/-- **The breaks of a layout are at its sites**, inside the stretch and one unit further in than it
starts. -/
theorem exists_layOut_sites {src : Source} {base stop : Nat} {level : Option Int}
    {atoms : List Atom} (h : Hides src base stop level atoms) {e : Extent}
    (he : src.Balanced e.start e.stop) (hb : base ≤ e.start) (hj : e.stop ≤ stop)
    (hlen : stop ≤ src.length) (hd : ∀ n ∈ level, src.depthFrom base e.start < n)
    (width : Int) {unit : Int} (hu : 0 ≤ unit) (indent : Int) :
    ∃ is, layOut src e width unit indent atoms = .ok is ∧
      Placed atoms e.start e.stop (indent + unit) is ∧
      ∀ i ∈ is, ∃ x : Nat, i.offset = x ∧ x < e.stop ∧ src.BreakSite x := by
  have hstop : e.stop ≤ src.length := Nat.le_trans hj hlen
  obtain ⟨f, hw, hl⟩ := exists_laid he hstop
  have hsize : ∀ a ∈ atoms, 0 ≤ a.span.length := fun a ha => Int.le_of_lt (h.span_length_pos ha)
  let page : Page := ⟨atoms, width, unit⟩
  have hlayOut := layOut_eq_breaks page hsize hstop hw hl (h.agrees hl hb hj hd) indent
  obtain ⟨hinc, hbounds, hclear, -⟩ :=
    hl.placed_breaks page (h.shown hl hb hj hd) hu ⟨false, indent⟩ indent
  have hwhole : ∀ i ∈ f.breaks page ⟨false, indent⟩ indent,
      i.offset < e.stop ∧ indent + unit ≤ i.indent := hl.mem_breaks_whole hu rfl
  refine ⟨_, hlayOut, ⟨hinc, hbounds, hclear, fun i hi => (hwhole i hi).2⟩, fun i hi => ?_⟩
  obtain ⟨x, hx, hoffset, -, hle⟩ := hl.mem_breaks hi
  have hlt : x < e.stop := by have := (hwhole i hi).1; omega
  refine ⟨x, hoffset, hlt, ?_⟩
  obtain ⟨t, ht, rfl, hk⟩ := hl.exists_of_mem_breakPoints hx
  rw [hw] at ht
  rcases hk with hk | hk
  · exact Or.inr (Source.behindSeparator_of_mem ht hk hle (Or.inl hlt))
  · exact Or.inl (Source.kind?_before_opener ht hk hlt)

end DiagLayout
