import DiagLayout.Proofs.BracketLanguage
import Mathlib.Data.List.Forall2

/-!
# Regions as the structure of the brackets

The regions of a stretch with whole groups are determined by its brackets alone. There is one for
each opener, up to the closer that the walk from this opener finds; two of them are apart or one
reaches further than the other at both ends; and the depth of a region counts the regions around it
(`Source.Structured`).

A stretch that has no regions fails for one of two reasons, and both can be read off counts of
brackets: a start of the stretch has more closers than openers (`Overdrawn`), or none has and some
groups are still open at the end.

* `Laid.openers_forall₂`: the openers of a stretch and its regions, one by one;
* `Laid.depth_eq_countP`: the depth of a region by the regions around it;
* `nest_outcome`: how the walk over the tokens ends, by the depth of their glyphs;
* `regions_are_the_structure`: all of it together.
-/

namespace DiagLayout

/-! ### Regions around a region -/

namespace Laid

variable {src : Source} {i j : Nat} {f : Forest Token}

/-- A region lies inside none that start or end no further out. -/
theorem countP_inside_eq_zero {rs : List Region} {r : Region}
    (h : ∀ r' ∈ rs, r.start ≤ r'.start ∨ r'.stop ≤ r.stop) :
    rs.countP (fun r' => r.Inside r') = 0 := by
  refine List.countP_eq_zero.mpr fun r' hr' => ?_
  have := h r' hr'
  rw [decide_eq_true_eq]
  rintro ⟨h1, h2⟩
  omega

/-- **The depth of a region** is one more than the number of regions around it, counted from the
depth of the forest. -/
theorem depth_eq_countP (h : Laid src i f j) : ∀ {d : Int} {r : Region}, r ∈ f.regions d →
    r.depth = d + 1 + (f.regions d).countP fun r' => r.Inside r' := by
  induction h with
  | nil => intro d r hr; simp [Forest.regions] at hr
  | item _ _ _ ih => intro d r hr; exact ih hr
  | @group i j b o c inner rest ho hob hi hc hcb hr ihi ihr =>
    intro d r hmem
    obtain ⟨-, hostop, hile, hlt, -⟩ := group_bounds ho hob hi hc hr
    simp only [Forest.regions, List.mem_cons, List.mem_append] at hmem
    simp only [Forest.regions, List.countP_cons, List.countP_append]
    rcases hmem with rfl | hmem | hmem
    · -- nothing here is around the outer region
      have h1 : (inner.regions (d + 1)).countP _ = 0 :=
        countP_inside_eq_zero (r := ⟨o.start + 1, c.start, d + 1⟩) fun r' hr' =>
          Or.inr (Int.le_of_lt (hi.region_bounds hr').2.2.1)
      have h2 : (rest.regions d).countP _ = 0 :=
        countP_inside_eq_zero (r := ⟨o.start + 1, c.start, d + 1⟩) fun r' hr' => by
          have := (hr.region_bounds hr').1
          exact Or.inl (by simp only; omega)
      rw [h1, h2, if_neg (by simp [Region.Inside])]
      simp
    · obtain ⟨hs, hse, he, -⟩ := hi.region_bounds hmem
      have hin : r.Inside ⟨o.start + 1, c.start, d + 1⟩ := ⟨by simp only; omega, he⟩
      have h2 : (rest.regions d).countP (fun r' => r.Inside r') = 0 :=
        countP_inside_eq_zero fun r' hr' => by
          have := (hr.region_bounds hr').1
          omega
      rw [h2, if_pos (by simpa using hin), ihi hmem]
      omega
    · obtain ⟨hs, hse, -, -⟩ := hr.region_bounds hmem
      have hout : ¬ r.Inside ⟨o.start + 1, c.start, d + 1⟩ := by
        rintro ⟨-, h'⟩
        simp only at h'
        omega
      have h1 : (inner.regions (d + 1)).countP (fun r' => r.Inside r') = 0 :=
        countP_inside_eq_zero fun r' hr' => by
          have := (hi.region_bounds hr').2.2.1
          omega
      rw [h1, if_neg (by simpa using hout), ihr hmem]
      omega

end Laid

/-! ### Openers and their regions -/

namespace Source

variable {src : Source}

/-- The positions of a stretch at which a bracket opens. -/
def openers (src : Source) (e : Extent) : List Nat :=
  (List.range' e.start (e.stop - e.start)).filter fun p => src.kind? p == some .opener

theorem openers_append {i j k : Nat} (hij : i ≤ j) (hjk : j ≤ k) :
    src.openers ⟨i, j⟩ ++ src.openers ⟨j, k⟩ = src.openers ⟨i, k⟩ := by
  have hrange : List.range' i (j - i) ++ List.range' j (k - j) = List.range' i (k - i) := by
    have happ := List.range'_append_1 (s := i) (m := j - i) (n := k - j)
    rwa [Nat.add_sub_cancel' hij, show j - i + (k - j) = k - i by omega] at happ
  rw [openers, openers, openers, ← List.filter_append, hrange]

theorem openers_succ {p : Nat} (h : src.kind? p = some .opener) :
    src.openers ⟨p, p + 1⟩ = [p] := by
  simp [openers, h]

theorem openers_eq_nil {i j : Nat} (h : ∀ g ∈ src.window ⟨i, j⟩, g.kind ≠ .opener) :
    src.openers ⟨i, j⟩ = [] := by
  refine List.filter_eq_nil_iff.mpr fun p hp hopen => ?_
  obtain ⟨hi, hj⟩ := List.mem_range'_1.mp hp
  rw [beq_iff_eq, kind?_natCast, Option.map_eq_some_iff] at hopen
  obtain ⟨g, hg, hk⟩ := hopen
  exact h g (mem_window hg hi (by simp only at hi hj; omega)) hk

theorem GroupAt.kind?_eq {p q : Nat} (h : src.GroupAt p q) : src.kind? p = some .opener := by
  obtain ⟨b, o, -, ho, hob, -⟩ := h
  rw [kind?_natCast, ho, Option.map_some, Glyph.kind_eq_opener.mpr ⟨b, hob⟩]

/-- The walk from the opener of a group answers its closer. -/
theorem GroupAt.findCloser_eq {p q stop : Nat} (h : src.GroupAt p q) (hq : q < stop)
    (hstop : stop ≤ src.length) : src.findCloser p stop = .ok (some q) := by
  rw [Source.findCloser_eq hstop h.kind?_eq, h.groupEnd?_window hq, Option.map_some,
    Nat.add_sub_cancel' h.lt.le]

end Source

theorem Token.At.openers_eq_nil {src : Source} {i : Nat} {t : Token} (h : t.At src i)
    (hk : t.kind ≠ .opener) : src.openers ⟨t.start, t.stop⟩ = [] := by
  refine Source.openers_eq_nil fun g hg => ?_
  rw [show src.window ⟨t.start, t.stop⟩ = t.glyphs from h.reads.symm] at hg
  obtain ⟨first, tail, hglyphs, hkind, htail, -⟩ := h.formed
  rw [hglyphs] at hg
  rcases List.mem_cons.mp hg with rfl | hg
  · rwa [← hkind]
  · intro hopen
    obtain ⟨b, hb⟩ := Glyph.kind_eq_opener.mp hopen
    have := htail g hg
    simp [hb, CharClass.isBracket] at this

/-- The region is the interior of the group that opens at `p` and closes before `stop`. -/
def Source.OpensAt (src : Source) (stop p : Nat) (r : Region) : Prop :=
  ∃ c : Nat, src.findCloser p stop = .ok (some c) ∧ r.start = p + 1 ∧ r.stop = c

/-- The openers of a group are its own and those of its interior. -/
theorem Laid.openers_group {src : Source} {i : Nat} {b : Bracket} {o c : Token}
    {inner : Forest Token} (ho : o.At src i) (hob : o.cls = .opener b)
    (hi : Laid src o.stop inner c.start) (hc : c.At src c.start) (hcb : c.cls = .closer b) :
    src.openers ⟨o.start, c.stop⟩ = o.start :: src.openers ⟨o.stop, c.start⟩ := by
  have hostop := ho.formed.stop_opener hob
  have hile := hi.le
  have hlt := hc.formed.lt_stop
  have hkc : c.kind ≠ .opener := by
    rw [hc.formed.kind_closer hcb]
    simp
  rw [← Source.openers_append (show o.start ≤ o.stop by omega) (show o.stop ≤ c.stop by omega),
    ← Source.openers_append hile hlt.le, hc.openers_eq_nil hkc, List.append_nil, hostop,
    Source.openers_succ (groupAt ho hob hi hc hcb).kind?_eq]
  rfl

/-- **The openers of a stretch and its regions, one by one.** -/
theorem Laid.openers_forall₂ {src : Source} {i j stop : Nat} {f : Forest Token}
    (h : Laid src i f j) (hj : j ≤ stop) (hstop : stop ≤ src.length) : ∀ d : Int,
      List.Forall₂ (src.OpensAt stop) (src.openers ⟨i, j⟩) (f.regions d) := by
  induction h with
  | nil => intro d; simp [Source.openers, Forest.regions]
  | @item i j t rest ht hbr hr ih =>
    intro d
    obtain ⟨hs, hlt, hle⟩ := item_bounds ht hr
    rw [← Source.openers_append hlt.le hle, ← hs, ht.openers_eq_nil (ht.formed.kind_item hbr).1]
    exact ih hj d
  | @group i j b o c inner rest ho hob hi hc hcb hr ihi ihr =>
    intro d
    obtain ⟨hos, hostop, hile, hlt, hrle⟩ := group_bounds ho hob hi hc hr
    have hg := groupAt ho hob hi hc hcb
    have hopeners : src.openers ⟨i, j⟩ =
        o.start :: (src.openers ⟨o.stop, c.start⟩ ++ src.openers ⟨c.stop, j⟩) := by
      rw [← Source.openers_append (show i ≤ c.stop by omega) hrle, ← hos,
        openers_group ho hob hi hc hcb]
      rfl
    rw [hopeners]
    refine .cons ⟨c.start, hg.findCloser_eq (by omega) hstop, rfl, rfl⟩ ?_
    exact List.rel_append (ihi (by omega) (d + 1)) (ihr hj d)

/-! ### Counts of brackets -/

section Counts

variable {α : Type} {cls : α → CharClass}

/-- From the depth `k` on, a start of the word closes more than is open. -/
def Overdrawn (cls : α → CharClass) (k : Int) (w : List α) : Prop :=
  ∃ n, k + depth cls (w.take n) < 0

theorem Overdrawn.of_neg {k : Int} (h : k < 0) (w : List α) : Overdrawn cls k w :=
  ⟨0, by simpa using h⟩

theorem overdrawn_nil {k : Int} : Overdrawn cls k [] ↔ k < 0 := by
  simp [Overdrawn]

theorem overdrawn_cons {k : Int} {a : α} {w : List α} :
    Overdrawn cls k (a :: w) ↔ k < 0 ∨ Overdrawn cls (k + (cls a).delta) w := by
  constructor
  · rintro ⟨n, hn⟩
    rcases n with _ | n
    · exact Or.inl (by simpa using hn)
    · rw [List.take_succ_cons, depth_cons, ← Int.add_assoc] at hn
      exact Or.inr ⟨n, hn⟩
  · rintro (hk | ⟨n, hn⟩)
    · exact .of_neg hk _
    · refine ⟨n + 1, ?_⟩
      rw [List.take_succ_cons, depth_cons, ← Int.add_assoc]
      exact hn

/-- Items in front close nothing. -/
theorem overdrawn_append_items {k : Int} {u w : List α} (hu : ∀ a ∈ u, (cls a).isBracket = false) :
    Overdrawn cls k (u ++ w) ↔ Overdrawn cls k w := by
  induction u with
  | nil => rfl
  | cons a u ih =>
    have ha := CharClass.delta_of_not_isBracket (hu a List.mem_cons_self)
    rw [List.cons_append, overdrawn_cons, ha, Int.add_zero,
      ih fun x hx => hu x (List.mem_cons_of_mem _ hx)]
    exact or_iff_right_of_imp fun hk => .of_neg hk w

end Counts

/-- The glyphs of a token move the depth as the token does. -/
theorem Token.Formed.overdrawn_iff {t : Token} (h : t.Formed) {k : Int} (hk : 0 ≤ k)
    (gs : List Glyph) :
    Overdrawn Glyph.cls k (t.glyphs ++ gs) ↔ Overdrawn Glyph.cls (k + t.cls.delta) gs := by
  obtain ⟨g, tail, hg, -, ht, -⟩ := h
  have hcls : t.cls = g.cls := by simp [cls, hg]
  rw [hg, List.cons_append, overdrawn_cons, or_iff_right (by omega), overdrawn_append_items ht,
    hcls]

/-- How a walk over glyphs from the depth `k` on ends: at a closer where they are overdrawn, or else
at their end, where as many groups are open as their depth says. -/
inductive Outcome (k : Int) (gs : List Glyph) : Except Fault (List Region) → Prop
  | unmatched (p : Nat) (h : Overdrawn Glyph.cls k gs) : Outcome k gs (.error (.unmatchedCloser p))
  | unclosed (p : Nat) (h : ¬ Overdrawn Glyph.cls k gs) (hpos : 0 < k + depth Glyph.cls gs) :
    Outcome k gs (.error (.unclosedGroup p))
  | whole (rs : List Region) (h : ¬ Overdrawn Glyph.cls k gs) (hzero : k + depth Glyph.cls gs = 0) :
    Outcome k gs (.ok rs)

/-- A token in front moves the depth that the walk starts from. -/
theorem Outcome.token {t : Token} (ht : t.Formed) {k : Int} (hk : 0 ≤ k) {gs : List Glyph}
    {r : Except Fault (List Region)} (h : Outcome (k + t.cls.delta) gs r) :
    Outcome k (t.glyphs ++ gs) r := by
  have hdepth : k + depth Glyph.cls (t.glyphs ++ gs) = k + t.cls.delta + depth Glyph.cls gs := by
    rw [depth_append, ht.depth_glyphs, Int.add_assoc]
  cases h with
  | unmatched p h => exact .unmatched p ((ht.overdrawn_iff hk gs).mpr h)
  | unclosed p h hpos => exact .unclosed p (mt (ht.overdrawn_iff hk gs).mp h) (hdepth ▸ hpos)
  | whole rs h hzero => exact .whole rs (mt (ht.overdrawn_iff hk gs).mp h) (hdepth.trans hzero)

/-- **How the walk over the tokens ends**, by the glyphs alone. -/
theorem nest_outcome {ts : List Token} (h : ∀ t ∈ ts, t.Formed) :
    ∀ (opened : List OpenGroup) (done : List Region),
      Outcome opened.length (ts.flatMap Token.glyphs) (nest opened done ts) := by
  induction ts with
  | nil =>
    intro opened done
    have hnot : ¬ Overdrawn Glyph.cls opened.length [] := by
      rw [overdrawn_nil]
      omega
    rcases opened with _ | ⟨g, outer⟩
    · exact .whole done hnot rfl
    · refine .unclosed g.opener hnot ?_
      simp only [List.length_cons, List.flatMap_nil, depth_nil]
      omega
  | cons t ts ih =>
    intro opened done
    have ht := h t List.mem_cons_self
    have hts := ih fun x hx => h x (List.mem_cons_of_mem _ hx)
    refine .token ht (Int.natCast_nonneg _) ?_
    cases hc : t.cls with
    | opener b =>
      rw [nest_opener (ht.kind_opener hc)]
      exact hts (⟨t.start, done⟩ :: opened) []
    | closer b =>
      have hkind := ht.kind_closer hc
      rcases opened with _ | ⟨g, outer⟩
      · have hstop : nest [] done (t :: ts) = .error (.unmatchedCloser t.start) := by
          unfold nest
          simp [hkind]
        rw [hstop]
        exact .unmatched t.start (.of_neg (by simp [CharClass.delta]) _)
      · have hlen : ((g :: outer).length : Int) + (CharClass.closer b).delta = outer.length := by
          simp only [List.length_cons, CharClass.delta]
          omega
        rw [nest_closer hkind, hlen]
        exact hts outer _
    | separator | space | symbol =>
      have hitem : t.cls.isBracket = false := by rw [hc]; rfl
      obtain ⟨hko, hkc⟩ := ht.kind_item hitem
      rw [nest_item hko hkc, ← hc, CharClass.delta_of_not_isBracket hitem, Int.add_zero]
      exact hts opened done

/-- The number of glyphs of a kind. -/
def Glyph.count (k : Kind) (gs : List Glyph) : Nat := gs.countP (Glyph.isKind k)

/-- The depth that glyphs lead to, by counts of kinds. -/
theorem depth_eq_counts (gs : List Glyph) :
    depth Glyph.cls gs = (Glyph.count .opener gs : Int) - Glyph.count .closer gs := by
  unfold Glyph.count
  induction gs with
  | nil => rfl
  | cons g gs ih =>
    rw [depth_cons, ih, List.countP_cons, List.countP_cons]
    cases hc : g.cls <;> simp [Glyph.isKind, Glyph.kind, CharClass.kind, CharClass.delta, hc] <;>
      omega

theorem overdrawn_iff_counts (gs : List Glyph) : Overdrawn Glyph.cls 0 gs ↔
    ∃ n, Glyph.count .opener (gs.take n) < Glyph.count .closer (gs.take n) := by
  refine exists_congr fun n => ?_
  rw [depth_eq_counts]
  omega

/-! ### The structure of a stretch -/

/-- **The regions show the structure of the brackets**: one for each opener, up to the closer found
from there; by increasing start; apart or inside each other; and as deep as there are regions
around. -/
structure Source.Structured (src : Source) (e : Extent) (rs : List Region) : Prop where
  opened : List.Forall₂ (src.OpensAt e.stop) (src.openers e) rs
  increasing : rs.Pairwise fun r r' => r.start < r'.start
  laminar : rs.Pairwise fun r r' => r.stop < r'.start ∨ r'.Inside r
  depth_eq : ∀ r ∈ rs, r.depth = 1 + rs.countP fun r' => r.Inside r'

theorem Laid.structured {src : Source} {e : Extent} {f : Forest Token}
    (h : Laid src e.start f e.stop) (hlen : e.stop ≤ src.length) :
    src.Structured e (f.regions 0) where
  opened := h.openers_forall₂ (Nat.le_refl _) hlen 0
  increasing := h.pairwise_starts 0
  laminar := (h.pairwise_apart_or_inside 0).imp (Or.imp_right And.left)
  depth_eq r hr := by rw [h.depth_eq_countP hr, Int.zero_add]

theorem Source.regions_outcome {src : Source} {e : Extent} (hlen : e.stop ≤ src.length) :
    Outcome 0 (src.window e) (src.regions e) := by
  have hout := nest_outcome (tiled_tokens src e).formed [] []
  rw [flatMap_glyphs_tokens] at hout
  rw [Source.regions, Source.readTokens_eq_ok hlen]
  exact hout

/-- **The regions of a stretch are the structure of its brackets.** Where the groups are whole, they
are all there and as they should be. Any stretch has an unmatched closer iff a start of it has more
closers than openers; if none has, then there is an unclosed group iff the stretch has more openers
than closers. -/
theorem regions_are_the_structure (src : Source) (e : Extent) (hlen : e.stop ≤ src.length) :
    (src.Balanced e.start e.stop → ∃ rs, src.regions e = .ok rs ∧ src.Structured e rs) ∧
    ((∃ p, src.regions e = .error (.unmatchedCloser p)) ↔ ∃ n,
      Glyph.count .opener ((src.window e).take n) < Glyph.count .closer ((src.window e).take n)) ∧
    ((∀ n, Glyph.count .closer ((src.window e).take n) ≤
        Glyph.count .opener ((src.window e).take n)) →
      ((∃ p, src.regions e = .error (.unclosedGroup p)) ↔
        Glyph.count .closer (src.window e) < Glyph.count .opener (src.window e))) := by
  refine ⟨fun hbal => ?_, ?_⟩
  · obtain ⟨f, hw, hl⟩ := exists_laid hbal hlen
    exact ⟨f.regions 0, regions_eq_of_laid hlen hw hl, hl.structured hlen⟩
  · have hout := Source.regions_outcome hlen
    have hover := overdrawn_iff_counts (src.window e)
    have hdepth := depth_eq_counts (src.window e)
    generalize src.regions e = r at hout
    cases hout with
    | unmatched p h =>
      refine ⟨iff_of_true ⟨p, rfl⟩ (hover.mp h), fun hle => ?_⟩
      obtain ⟨n, hn⟩ := hover.mp h
      exact absurd (hle n) (Nat.not_le.mpr hn)
    | unclosed p h hpos =>
      exact ⟨iff_of_false (by simp) (mt hover.mpr h), fun _ => iff_of_true ⟨p, rfl⟩ (by omega)⟩
    | whole rs h hzero =>
      exact ⟨iff_of_false (by simp) (mt hover.mpr h), fun _ => iff_of_false (by simp) (by omega)⟩

/-- In `f(a<b>, [c])` three groups open, and the outer one has the others inside. In `a)(b` the
closer comes first, and in `(a[b]` a group is still open at the end. -/
theorem regions_are_the_structure_outcomes :
    (∃ rs, (Source.ofText "f(a<b>, [c])".toList).regions ⟨0, 12⟩ = .ok rs ∧
      (Source.ofText "f(a<b>, [c])".toList).Structured ⟨0, 12⟩ rs) ∧
    (∃ p, (Source.ofText "a)(b".toList).regions ⟨0, 4⟩ = .error (.unmatchedCloser p)) ∧
    (∃ p, (Source.ofText "(a[b]".toList).regions ⟨0, 5⟩ = .error (.unclosedGroup p)) := by
  refine ⟨?_, ?_, ?_⟩
  · have hbal : (Source.ofText "f(a<b>, [c])".toList).Balanced 0 12 :=
      ⟨by decide, nested_iff_openAfter.mpr (by decide +kernel)⟩
    exact (regions_are_the_structure _ ⟨0, 12⟩ (by decide)).1 hbal
  · exact (regions_are_the_structure _ ⟨0, 4⟩ (by decide)).2.1.mpr ⟨2, by decide +kernel⟩
  · refine ((regions_are_the_structure _ ⟨0, 5⟩ (by decide)).2.2 fun n => ?_).mpr
      (by decide +kernel)
    have hstarts : ∀ n < 5,
        Glyph.count .closer (((Source.ofText "(a[b]".toList).window ⟨0, 5⟩).take n) ≤
          Glyph.count .opener (((Source.ofText "(a[b]".toList).window ⟨0, 5⟩).take n) := by
      decide +kernel
    rcases Nat.lt_or_ge n 5 with hn | hn
    · exact hstarts n hn
    · rw [List.take_of_length_le (by simpa [Source.window] using hn)]
      decide +kernel

end DiagLayout
