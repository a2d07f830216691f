import DiagLayout.Proofs.BreakSites
import Mathlib.Data.List.Chain

/-!
# The tokens of a stretch

The tokens of a stretch are a partition of it, and the only one of its shape. What a token takes is
said in terms of the kinds of the glyphs at the positions of the source (`Source.TokenAt`): where a
run of one kind ends inside the stretch (`Source.RunTo`), and that it could not start earlier
(`Source.MaximalRun`).

* `Source.TokenAt.cutAt_stop`: no run goes on over the end of a token;
* `Source.TokenAt.not_bracket_inside`: behind its first glyph a token has no bracket;
* `Source.exists_tokenAt`: what is read at a position where no run goes on is a token in its place;
* `Source.tiles_tokensFrom`: from such a position on, tokens lie one behind the other up to the end
  of the stretch; `Source.Tiles.unique`: there are no others.

The main result is `tokens_are_the_partition`.
-/

namespace DiagLayout

namespace Source

variable {src : Source} {e : Extent} {k : Kind} {i j : Nat} {t : Token}

/-! ### Runs inside a stretch -/

/-- The run of kind `k` from `i` on, which may be empty, ends at `j` inside the stretch. -/
structure RunTo (src : Source) (e : Extent) (k : Kind) (i j : Nat) : Prop where
  le : i ≤ j
  le_stop : j ≤ e.stop
  kind_eq : ∀ p : Nat, i ≤ p → p < j → src.kind? p = some k
  kind_ne : j < e.stop → src.kind? j ≠ some k

/-- **A maximal run of the stretch**: it is not empty, and no glyph of its kind stands next to it in
the stretch, on neither side. -/
structure MaximalRun (src : Source) (e : Extent) (k : Kind) (i j : Nat) : Prop
    extends src.RunTo e k i j where
  lt : i < j
  before_ne : e.start < i → src.kind? ((i : Int) - 1) ≠ some k

theorem RunTo.unique {j' : Nat} (h : src.RunTo e k i j) (h' : src.RunTo e k i j') : j = j' := by
  have hle := h.le_stop
  have hle' := h'.le_stop
  rcases Nat.lt_trichotomy j j' with hlt | rfl | hlt
  · exact absurd (h'.kind_eq j h.le hlt) (h.kind_ne (by omega))
  · rfl
  · exact absurd (h.kind_eq j' h'.le hlt) (h'.kind_ne (by omega))

/-- A run that is not empty does not go on over its end, and neither does any other. -/
theorem RunTo.not_runsOver (h : src.RunTo e k i j) (hlt : i < j) (hj : j < e.stop) (k' : Kind) :
    ¬ src.RunsOver k' j := by
  rintro ⟨hlast, hnext⟩
  rw [show ((j : Int) - 1) = ((j - 1 : Nat) : Int) by omega,
    h.kind_eq (j - 1) (by omega) (by omega)] at hlast
  rw [← hlast] at hnext
  exact h.kind_ne hj hnext

theorem drop_window (src : Source) (i n stop : Nat) :
    (src.window ⟨i, stop⟩).drop n = src.window ⟨i + n, stop⟩ := by
  rw [window, window, List.drop_take, List.drop_drop, Nat.sub_add_eq]

theorem runTo_runLength (hstop : e.stop ≤ src.length) (hi : i ≤ e.stop) (k : Kind) :
    src.RunTo e k i (i + runLength k (src.window ⟨i, e.stop⟩)) := by
  have hrun := runLength_le k (src.window ⟨i, e.stop⟩)
  rw [src.length_window ⟨i, e.stop⟩ hstop] at hrun
  simp only at hrun
  refine ⟨by omega, by omega, fun p hp hlt => ?_, fun hlt => ?_⟩
  · obtain ⟨n, rfl⟩ := Nat.exists_eq_add_of_le hp
    rw [kind?_window (e := ⟨i, e.stop⟩) (by simp only; omega)]
    exact kind_of_lt_runLength (by omega)
  · rw [kind?_window (e := ⟨i, e.stop⟩) hlt]
    exact kind_runLength_ne

/-! ### One token -/

/-- **A token in its place in a stretch.** The last four fields say what it takes, by its kind. -/
structure TokenAt (src : Source) (e : Extent) (t : Token) : Prop where
  lt_stop : t.start < t.stop
  stop_le : t.stop ≤ e.stop
  glyphs_eq : t.glyphs = src.window t.extent
  kind_eq : src.kind? t.start = some t.kind
  opener : t.kind = .opener → t.stop = t.start + 1
  closer : t.kind = .closer → ∃ w, src.RunTo e .space (t.start + 1) w ∧ t.stop =
    if t.start + 1 < w ∧ w < e.stop ∧ src.kind? w = some .closer then w else t.start + 1
  separator : t.kind = .separator →
    ∃ s, src.MaximalRun e .separator t.start s ∧ src.RunTo e .space s t.stop
  run : t.kind = .space ∨ t.kind = .symbol → src.MaximalRun e t.kind t.start t.stop

/-- No run goes on over the position inside the stretch. Brackets make no runs. -/
def CutAt (src : Source) (e : Extent) (i : Nat) : Prop :=
  e.start < i → i < e.stop → ∀ k : Kind, k ≠ .opener → k ≠ .closer → ¬ src.RunsOver k i

namespace TokenAt

variable {t' : Token}

theorem kind_eq_of_start_eq (h : src.TokenAt e t) (h' : src.TokenAt e t')
    (hstart : t.start = t'.start) : t.kind = t'.kind := by
  have hkind := h.kind_eq
  rw [hstart, h'.kind_eq] at hkind
  exact (Option.some.inj hkind).symm

theorem stop_eq_of_start_eq (h : src.TokenAt e t) (h' : src.TokenAt e t')
    (hstart : t.start = t'.start) : t.stop = t'.stop := by
  have hkind := h.kind_eq_of_start_eq h' hstart
  cases hk : t.kind with
  | opener => rw [h.opener hk, h'.opener (hkind ▸ hk), hstart]
  | closer =>
    obtain ⟨w, hw, hstop⟩ := h.closer hk
    obtain ⟨w', hw', hstop'⟩ := h'.closer (hkind ▸ hk)
    rw [← hstart] at hw' hstop'
    obtain rfl := hw.unique hw'
    rw [hstop, hstop']
  | separator =>
    obtain ⟨s, hsep, hsp⟩ := h.separator hk
    obtain ⟨s', hsep', hsp'⟩ := h'.separator (hkind ▸ hk)
    rw [← hstart] at hsep'
    obtain rfl := hsep.unique hsep'.toRunTo
    exact hsp.unique hsp'
  | space | symbol =>
    have hrun := h.run (by simp [hk])
    have hrun' := h'.run (by simp [← hkind, hk])
    rw [← hstart, ← hkind] at hrun'
    exact hrun.unique hrun'.toRunTo

/-- **Only one token starts at a position.** -/
theorem eq_of_start_eq (h : src.TokenAt e t) (h' : src.TokenAt e t')
    (hstart : t.start = t'.start) : t = t' := by
  have hkind := h.kind_eq_of_start_eq h' hstart
  have hglyphs : t.glyphs = t'.glyphs := by
    rw [h.glyphs_eq, h'.glyphs_eq, Token.extent, Token.extent, hstart,
      h.stop_eq_of_start_eq h' hstart]
  cases t
  cases t'
  simp_all

/-- **No run goes on over the end of a token.** -/
theorem cutAt_stop (h : src.TokenAt e t) : src.CutAt e t.stop := by
  intro _ hstop k hko hkc
  -- a token of one glyph ends with it
  have hone : t.stop = t.start + 1 → src.RunsOver k t.stop → k = t.kind := by
    rintro heq ⟨hlast, -⟩
    rw [heq, show ((t.start + 1 : Nat) : Int) - 1 = t.start by omega, h.kind_eq] at hlast
    exact (Option.some.inj hlast).symm
  cases hk : t.kind with
  | opener => exact fun hover => hko ((hone (h.opener hk) hover).trans hk)
  | closer =>
    obtain ⟨w, hw, hend⟩ := h.closer hk
    split_ifs at hend with hext
    · rintro ⟨-, hnext⟩
      rw [hend, hext.2.2] at hnext
      exact hkc (Option.some.inj hnext).symm
    · exact fun hover => hkc ((hone hend hover).trans hk)
  | separator =>
    obtain ⟨s, hsep, hsp⟩ := h.separator hk
    -- it ends with its spaces, or with the separators if there are none
    rcases Nat.eq_or_lt_of_le hsp.le with heq | hlt
    · rw [← heq] at hstop ⊢
      exact hsep.not_runsOver hsep.lt hstop k
    · exact hsp.not_runsOver hlt hstop k
  | space | symbol => exact (h.run (by simp [hk])).not_runsOver h.lt_stop hstop k

/-- Behind its first glyph a token has no bracket. -/
theorem not_bracket_inside (h : src.TokenAt e t) {p : Nat} (hp : t.start < p) (hlt : p < t.stop)
    (hk' : k = .opener ∨ k = .closer) : src.kind? p ≠ some k := by
  have hrun : ∀ {k' : Kind} {i j : Nat}, src.RunTo e k' i j → i ≤ p → p < j → k' ≠ k →
      src.kind? p ≠ some k := by
    intro k' i j hr hi hj hne
    rw [hr.kind_eq p hi hj]
    exact fun heq => hne (Option.some.inj heq)
  cases hk : t.kind with
  | opener =>
    have := h.opener hk
    omega
  | closer =>
    obtain ⟨w, hw, hend⟩ := h.closer hk
    split_ifs at hend
    · exact hrun hw hp (by omega) (by rintro rfl; simp at hk')
    · omega
  | separator =>
    obtain ⟨s, hsep, hsp⟩ := h.separator hk
    by_cases hps : p < s
    · exact hrun hsep.toRunTo hp.le hps (by rintro rfl; simp at hk')
    · exact hrun hsp (by omega) hlt (by rintro rfl; simp at hk')
  | space | symbol =>
    exact hrun (h.run (by simp [hk])).toRunTo hp.le hlt (by rintro rfl; simp [hk] at hk')

end TokenAt

/-! ### The token read at a position -/

/-- A run that starts where no run goes on is maximal. -/
theorem CutAt.maximalRun (hi : src.CutAt e i) (hk : src.kind? i = some k) (hko : k ≠ .opener)
    (hkc : k ≠ .closer) (hlt : i < j) (h : src.RunTo e k i j) : src.MaximalRun e k i j :=
  { h with
    lt := hlt
    before_ne := fun hstart hbefore =>
      hi hstart (Nat.lt_of_lt_of_le hlt h.le_stop) k hko hkc ⟨hbefore, hk⟩ }

section Tail

variable (hlen : e.stop ≤ src.length) (hlt : i < e.stop)
include hlen hlt

/-- The run of the first glyph of a stretch. -/
theorem runTo_first (hk : src.kind? i = some k) :
    src.RunTo e k i (i + 1 + runLength k (src.window ⟨i + 1, e.stop⟩)) := by
  have hrun := runTo_runLength hlen hlt.le k
  rw [kind?_natCast] at hk
  obtain ⟨g, hg, hgk⟩ := Option.map_eq_some_iff.mp hk
  have hcons : runLength k (src.window ⟨i, e.stop⟩) =
      runLength k (src.window ⟨i + 1, e.stop⟩) + 1 := by
    rw [window_eq_cons hg hlt]
    simp [runLength, Glyph.isKind, hgk]
  rwa [hcons, Nat.add_comm (runLength _ _), ← Nat.add_assoc] at hrun

theorem exists_runTo_separator (hk : src.kind? i = some .separator) :
    ∃ s, i < s ∧ src.RunTo e .separator i s ∧
      src.RunTo e .space s (i + 1 + tokenTail .separator (src.window ⟨i + 1, e.stop⟩)) := by
  have hsep := runTo_first hlen hlt hk
  refine ⟨_, by omega, hsep, ?_⟩
  rw [tokenTail, drop_window, ← Nat.add_assoc]
  exact runTo_runLength hlen hsep.le_stop .space

theorem exists_runTo_closer : ∃ w, src.RunTo e .space (i + 1) w ∧
    i + 1 + tokenTail .closer (src.window ⟨i + 1, e.stop⟩) =
      if i + 1 < w ∧ w < e.stop ∧ src.kind? w = some .closer then w else i + 1 := by
  set n := runLength .space (src.window ⟨i + 1, e.stop⟩) with hn
  refine ⟨i + 1 + n, runTo_runLength hlen hlt .space, ?_⟩
  have hnext : ((src.window ⟨i + 1, e.stop⟩).drop n).head?.any (Glyph.isKind .closer) = true ↔
      i + 1 + n < e.stop ∧ src.kind? (i + 1 + n : Nat) = some .closer := by
    rw [drop_window]
    by_cases hw : i + 1 + n < e.stop
    · obtain ⟨g, hg⟩ : ∃ g, src[i + 1 + n]? = some g := ⟨_, List.getElem?_eq_getElem (by omega)⟩
      rw [window_eq_cons hg hw, kind?_natCast, hg]
      simp [Glyph.isKind, hw]
    · simp [window, Nat.sub_eq_zero_of_le (Nat.not_lt.mp hw), hw]
  simp only [tokenTail, ← hn, hnext]
  by_cases hclose : i + 1 + n < e.stop ∧ src.kind? (i + 1 + n : Nat) = some .closer
  · rw [if_pos hclose]
    -- without spaces both ends are the same
    by_cases hsome : i + 1 < i + 1 + n
    · rw [if_pos ⟨hsome, hclose⟩]
    · rw [if_neg fun h => hsome h.1]
      omega
  · rw [if_neg hclose, if_neg fun h => hclose h.2, Nat.add_zero]

end Tail

/-- **What is read at a position where no run goes on is a token in its place.** -/
theorem exists_tokenAt (hlen : e.stop ≤ src.length) (hlt : i < e.stop) (hi : src.CutAt e i) :
    ∃ t, tokensFrom i (src.window ⟨i, e.stop⟩) =
        t :: tokensFrom t.stop (src.window ⟨t.stop, e.stop⟩) ∧ t.start = i ∧ src.TokenAt e t := by
  obtain ⟨g, hg⟩ : ∃ g, src[i]? = some g := ⟨_, List.getElem?_eq_getElem (by omega)⟩
  have hkind : src.kind? i = some g.kind := by rw [kind?_natCast, hg, Option.map_some]
  set rest := src.window ⟨i + 1, e.stop⟩ with hrest
  have hwindow : src.window ⟨i, e.stop⟩ = g :: rest := window_eq_cons hg hlt
  have hlength : rest.length = e.stop - (i + 1) := src.length_window ⟨i + 1, e.stop⟩ hlen
  have hle : tokenTail g.kind rest ≤ rest.length := tokenTail_le g.kind rest
  set t : Token := ⟨g.kind, i, g :: rest.take (tokenTail g.kind rest)⟩ with ht
  have htk : t.kind = g.kind := rfl
  have hstart : t.start = i := rfl
  have hstop : t.stop = i + 1 + tokenTail g.kind rest := by
    rw [Token.stop, ht, List.length_cons, List.length_take, Nat.min_eq_left hle]
    simp only
    omega
  refine ⟨t, ?_, hstart, ?_⟩
  · rw [hwindow, tokensFrom, hstop, hrest, drop_window, Nat.add_assoc, Nat.add_comm 1]
  · refine ⟨by omega, by omega, ?_, hkind, fun hk => ?_, fun hk => ?_, fun hk => ?_, fun hk => ?_⟩
    · rw [Token.extent, hstop, hstart, Nat.add_assoc, Nat.add_comm 1,
        ← take_window src (j := e.stop) (by omega), hwindow]
      rfl
    · rw [hstop, hstart, ← htk, hk]
      rfl
    · rw [hstop, hstart, ← htk, hk]
      exact exists_runTo_closer hlen hlt
    · rw [hstop, hstart, ← htk, hk]
      rw [← htk, hk] at hkind
      obtain ⟨s, hs, hsep, hsp⟩ := exists_runTo_separator hlen hlt hkind
      exact ⟨s, hi.maximalRun hkind (by simp) (by simp) hs hsep, hsp⟩
    · have htail : tokenTail t.kind rest = runLength t.kind rest := by
        rcases hk with hk | hk <;> rw [hk] <;> rfl
      rw [hstop, hstart, ← htk, htail]
      refine hi.maximalRun hkind ?_ ?_ (by omega) (runTo_first hlen hlt hkind)
      · rcases hk with hk | hk <;> simp [hk]
      · rcases hk with hk | hk <;> simp [hk]

/-! ### All tokens -/

/-- The tokens lie one behind the other from `i` to `j`. -/
def Tiles (i j : Nat) : List Token → Prop
  | [] => i = j
  | t :: ts => t.start = i ∧ Tiles t.stop j ts

/-- **The tokens from a position on** lie one behind the other up to the end of the stretch, each
one in its place. -/
theorem tiles_tokensFrom (hlen : e.stop ≤ src.length) (n : Nat) : ∀ i, e.stop - i ≤ n →
    i ≤ e.stop → src.CutAt e i →
      Tiles i e.stop (tokensFrom i (src.window ⟨i, e.stop⟩)) ∧
        ∀ t ∈ tokensFrom i (src.window ⟨i, e.stop⟩), src.TokenAt e t := by
  induction n with
  | zero =>
    intro i hn hi _
    obtain rfl : i = e.stop := by omega
    simp [tokensFrom, Tiles]
  | succ n ih =>
    intro i hn hi hcut
    rcases Nat.eq_or_lt_of_le hi with rfl | hlt
    · simp [tokensFrom, Tiles]
    obtain ⟨t, ht, hstart, hat⟩ := exists_tokenAt hlen hlt hcut
    have hstop := hat.lt_stop
    obtain ⟨htiles, hall⟩ := ih t.stop (by omega) hat.stop_le hat.cutAt_stop
    rw [ht]
    exact ⟨⟨hstart, htiles⟩, List.forall_mem_cons.mpr ⟨hat, hall⟩⟩

/-- **There are no other tokens**: what lies from `i` up to the end of the stretch, each token in
its place, is determined. -/
theorem Tiles.unique {ts : List Token} : ∀ {i : Nat} {ts' : List Token}, Tiles i e.stop ts →
    Tiles i e.stop ts' → (∀ t ∈ ts, src.TokenAt e t) → (∀ t ∈ ts', src.TokenAt e t) → ts = ts' := by
  -- where one list ends, the other has no room for a token
  have hroom : ∀ {t : Token} {ts : List Token}, Tiles e.stop e.stop (t :: ts) → src.TokenAt e t →
      False := by
    rintro t ts ⟨hstart, -⟩ hat
    have := hat.lt_stop
    have := hat.stop_le
    omega
  induction ts with
  | nil =>
    intro i ts' h h' _ hall'
    obtain rfl : i = e.stop := h
    rcases ts' with _ | ⟨t', ts'⟩
    · rfl
    · exact (hroom h' (hall' t' List.mem_cons_self)).elim
  | cons t ts ih =>
    intro i ts' h h' hall hall'
    have hat := hall t List.mem_cons_self
    rcases ts' with _ | ⟨t', ts'⟩
    · obtain rfl : i = e.stop := h'
      exact (hroom h hat).elim
    · obtain rfl := hat.eq_of_start_eq (hall' t' List.mem_cons_self) (h.1.trans h'.1.symm)
      rw [ih h.2 h'.2 (fun x hx => hall x (List.mem_cons_of_mem _ hx))
        fun x hx => hall' x (List.mem_cons_of_mem _ hx)]

/-- Every position lies in a token. -/
theorem Tiles.exists_mem {ts : List Token} : ∀ {i : Nat}, Tiles i j ts → ∀ {p : Nat}, i ≤ p →
    p < j → ∃ t ∈ ts, t.start ≤ p ∧ p < t.stop := by
  induction ts with
  | nil =>
    rintro i rfl p hi hj
    omega
  | cons t ts ih =>
    rintro i ⟨rfl, hts⟩ p hi hj
    by_cases hp : p < t.stop
    · exact ⟨t, List.mem_cons_self, hi, hp⟩
    · obtain ⟨u, hu, hbounds⟩ := ih hts (Nat.not_lt.mp hp) hj
      exact ⟨u, List.mem_cons_of_mem _ hu, hbounds⟩

/-- Two tokens in a row are not both symbols and not both spaces. -/
theorem Tiles.isChain {ts : List Token} : ∀ {i : Nat}, Tiles i j ts →
    (∀ t ∈ ts, src.TokenAt e t) →
      ts.IsChain fun t u => t.kind = u.kind → t.kind ≠ .symbol ∧ t.kind ≠ .space := by
  induction ts with
  | nil => exact fun _ _ => .nil
  | cons t ts ih =>
    rintro i ⟨-, hts⟩ hall
    obtain ⟨hat, hall⟩ := List.forall_mem_cons.mp hall
    rcases ts with _ | ⟨u, us⟩
    · exact .singleton t
    refine .cons_cons (fun hkind => ?_) (ih hts hall)
    have hu := hall u List.mem_cons_self
    have hbounds : t.stop < e.stop := by
      rw [← hts.1]
      exact Nat.lt_of_lt_of_le hu.lt_stop hu.stop_le
    -- the run of the first token would go on in the second
    have hnot : ¬ (t.kind = .space ∨ t.kind = .symbol) := by
      intro hk
      refine (hat.run hk).kind_ne hbounds ?_
      rw [← hts.1, hu.kind_eq, hkind]
    exact ⟨fun h => hnot (Or.inr h), fun h => hnot (Or.inl h)⟩

/-- **The tokens of a stretch as a partition of it.** -/
structure Partitioned (src : Source) (e : Extent) (ts : List Token) : Prop where
  tiles : Tiles e.start e.stop ts
  tokenAt : ∀ t ∈ ts, src.TokenAt e t
  text_eq : ts.flatMap Token.text = src.text.slice e.start e.stop
  brackets : ∀ p : Nat, e.start ≤ p → p < e.stop → ∀ k : Kind, k = .opener ∨ k = .closer →
    (src.kind? p = some k ↔ ∃ t ∈ ts, t.start = p ∧ t.kind = k)
  isChain : ts.IsChain fun t u => t.kind = u.kind → t.kind ≠ .symbol ∧ t.kind ≠ .space

theorem partitioned_tokens (he : e.start ≤ e.stop) (hlen : e.stop ≤ src.length) :
    src.Partitioned e (src.tokens e) := by
  obtain ⟨htiles, hall⟩ := tiles_tokensFrom hlen _ e.start (Nat.le_refl _) he
    fun h => absurd h (Nat.lt_irrefl _)
  refine ⟨htiles, hall, ?_, fun p hp hlt k hk => ⟨fun hkind => ?_, ?_⟩, htiles.isChain hall⟩
  · have hlen' : src.text.length = src.length := by simp [text, Glyph.text]
    rw [Text.slice_natCast _ _ _ (by omega) (by omega), List.drop_take, text, Glyph.text,
      ← List.map_drop, ← List.map_take]
    calc (src.tokens e).flatMap Token.text
        = ((src.tokens e).flatMap Token.glyphs).map Glyph.char := List.map_flatMap.symm
      _ = (src.window e).map Glyph.char := by rw [flatMap_glyphs_tokens]
  · obtain ⟨t, ht, hstart, hstop⟩ := htiles.exists_mem hp hlt
    rcases Nat.eq_or_lt_of_le hstart with rfl | hinside
    · refine ⟨t, ht, rfl, ?_⟩
      rw [(hall t ht).kind_eq] at hkind
      exact Option.some.inj hkind
    · exact absurd hkind ((hall t ht).not_bracket_inside hinside hstop hk)
  · rintro ⟨t, ht, rfl, rfl⟩
    exact (hall t ht).kind_eq

end Source

/-- **The tokens of a stretch are the partition of it.** Reading a stretch ends with tokens that
partition it in the way said by `Source.Partitioned`, and no other list of tokens does. -/
theorem tokens_are_the_partition (src : Source) {e : Extent} (he : e.start ≤ e.stop)
    (hlen : e.stop ≤ src.length) :
    ∃ ts, src.readTokens e = .ok ts ∧ src.Partitioned e ts ∧
      ∀ ts', src.Partitioned e ts' → ts' = ts := by
  have hover : src.overruns e = false := by
    simp [Source.overruns, Nat.not_lt.mpr hlen]
  have hp := Source.partitioned_tokens he hlen
  refine ⟨src.tokens e, by rw [Source.readTokens, hover]; rfl, hp, fun ts' hp' => ?_⟩
  exact hp'.tiles.unique hp.tiles hp'.tokenAt hp.tokenAt

/-- The space between two closers belongs to the first of them; the one at the end of the stretch is
a token, though a closer would follow it. -/
theorem tokens_are_the_partition_closers :
    ∃ ts, (Source.ofText "p<q, r> > >".toList).Partitioned ⟨1, 10⟩ ts ∧
      ts.map (fun t => String.ofList t.text) = ["<", "q", ", ", "r", "> ", ">", " "] := by
  obtain ⟨ts, hts, hp, -⟩ := tokens_are_the_partition (Source.ofText "p<q, r> > >".toList)
    (e := ⟨1, 10⟩) (by decide) (by decide)
  refine ⟨ts, hp, ?_⟩
  have hread : ((Source.ofText "p<q, r> > >".toList).readTokens ⟨1, 10⟩).map
      (·.map fun t => String.ofList t.text) = .ok ["<", "q", ", ", "r", "> ", ">", " "] := by
    decide +kernel
  rw [hts] at hread
  exact Except.ok.inj hread

end DiagLayout
