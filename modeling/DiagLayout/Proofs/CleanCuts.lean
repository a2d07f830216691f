import DiagLayout.Proofs.Derivations
import DiagLayout.Proofs.Regions

/-!
# Where a grammar stops reading

A grammar that has read something stops at a clean cut. What it has read is nested
(`Grammar.consume_nested`), and no run goes on over the place where it stops: the leaves take whole
runs, and a group ends with its closer (`Grammar.consume_endsRun`).

A match is cut out of a text in this way, so it holds each group of the text whole or not at all.
The same is true of the spellings that read as one symbol: their occurrences, found from left to
right and without overlap (`Spelling.occurrences`), are marked in the source, so they lie inside
runs.

The main result is `reading_cuts_cleanly`.
-/

namespace DiagLayout

/-! ### Groups and their ends -/

/-- **A walk that ends has found a group**: the converse of `groupEnd?_group`. -/
theorem exists_group_of_groupEnd? {gs : List Glyph} {d : Nat} (h : groupEnd? gs = some d) :
    ∃ (o c : Glyph) (b : Bracket) (u v : List Glyph), gs = o :: (u ++ c :: v) ∧
      o.cls = .opener b ∧ c.cls = .closer b ∧ Nested Glyph.cls u ∧ d = u.length + 1 := by
  obtain ⟨-, f, hf, hw⟩ := nested_of_groupEnd? h
  rcases gs with _ | ⟨g, gs⟩
  · simp [groupEnd?] at h
  have hg : g.kind = .opener := by
    by_contra hk
    simp [groupEnd?, hk] at h
  rw [List.take_succ_cons] at hw
  cases f with
  | nil => simp [Forest.word] at hw
  | item a rest =>
    obtain ⟨rfl, -⟩ := List.cons.inj hw
    have hitem := hf.1
    cases hc : a.cls <;> simp_all [Glyph.kind, CharClass.kind, CharClass.isBracket]
  | group o inner c rest =>
    obtain ⟨⟨b, ho, hc⟩, hi, -⟩ := hf
    obtain ⟨rfl, htake⟩ := List.cons.inj hw
    have hgs : gs = inner.word ++ c :: (rest.word ++ gs.drop d) := by
      rw [← List.cons_append, ← List.append_assoc, htake, List.take_append_drop]
    have hnested : Nested Glyph.cls inner.word := ⟨inner, hi, rfl⟩
    rw [hgs, groupEnd?_group ho hc hnested, Option.some_inj] at h
    exact ⟨o, c, b, inner.word, _, congrArg _ hgs, ho, hc, hnested, h.symm⟩

/-- A group with its opener inside a balanced stretch lies inside it. -/
theorem Source.Balanced.closer_lt {src : Source} {i j p q : Nat} (h : src.Balanced i j)
    (hj : j ≤ src.length) (hg : src.GroupAt p q) (hi : i ≤ p) (hp : p < j) : q < j := by
  obtain ⟨f, -, hl⟩ := exists_laid (e := ⟨i, j⟩) h hj
  have hbounds := hl.region_bounds (hl.mem_regions_of_groupAt (Nat.le_refl i) hg hi hp)
  have hstop := hbounds.2.2.1
  simp only at hstop
  omega

/-! ### Runs over a position -/

/-- A run goes on over the position: the glyphs before it and at it are both of kind `k`. -/
def Source.RunsOver (src : Source) (k : Kind) (p : Nat) : Prop :=
  src.kind? ((p : Int) - 1) = some k ∧ src.kind? p = some k

theorem Source.runsOver_succ {src : Source} {k : Kind} {n : Nat} : src.RunsOver k (n + 1) ↔
    src[n]?.map Glyph.kind = some k ∧ src[n + 1]?.map Glyph.kind = some k := by
  have hbefore : ((n + 1 : Nat) : Int) - 1 = (n : Nat) := by omega
  unfold RunsOver kind?
  rw [hbefore, if_neg (by omega), if_neg (by omega), Int.toNat_natCast, Int.toNat_natCast]

/-- The first `n` glyphs do not stop inside a run of kind `k`. -/
def EndsRun (k : Kind) (gs : List Glyph) (n : Nat) : Prop := 0 < n → ¬ Source.RunsOver gs k n

namespace EndsRun

variable {k : Kind} {gs : List Glyph}

theorem zero (k : Kind) (gs : List Glyph) : EndsRun k gs 0 := fun h => absurd h (Nat.lt_irrefl 0)

theorem add {n m : Nat} (hn : EndsRun k gs n) (hm : EndsRun k (gs.drop n) m) :
    EndsRun k gs (n + m) := by
  rcases m with _ | m
  · exact hn
  · intro _ hover
    rw [← Nat.add_assoc, Source.runsOver_succ] at hover
    refine hm (Nat.succ_pos m) (Source.runsOver_succ.mpr ?_)
    rw [List.getElem?_drop, List.getElem?_drop, ← Nat.add_assoc]
    exact hover

/-- A whole run is of one kind, and what follows it is not. -/
theorem run (k k' : Kind) (gs : List Glyph) : EndsRun k gs (runLength k' gs) := by
  intro hpos hover
  obtain ⟨n, hn⟩ : ∃ n, runLength k' gs = n + 1 := ⟨runLength k' gs - 1, by omega⟩
  rw [hn, Source.runsOver_succ] at hover
  obtain ⟨hlast, hnext⟩ := hover
  obtain ⟨g, hg, hgk⟩ := Option.map_eq_some_iff.mp hlast
  obtain ⟨g', hg', hgk'⟩ := Option.map_eq_some_iff.mp hnext
  have hsplit : gs = gs.take (n + 1) ++ gs.drop (n + 1) := (List.take_append_drop _ _).symm
  -- the last glyph of the run tells its kind
  have hkind : Glyph.isKind k' g = true := by
    have hmem : g ∈ gs.take (n + 1) := by
      refine List.mem_of_getElem? (i := n) ?_
      rw [List.getElem?_take, if_pos (Nat.lt_succ_self n), hg]
    rw [← hn, take_runLength] at hmem
    exact List.mem_takeWhile_imp hmem
  have hstop : Glyph.isKind k' g' = false := by
    have hhead := List.head?_dropWhile_not (Glyph.isKind k') gs
    have hdrop : gs.dropWhile (Glyph.isKind k') = gs.drop (n + 1) := by
      have := List.takeWhile_append_dropWhile (p := Glyph.isKind k') (l := gs)
      rw [← take_runLength, hn] at this
      exact List.append_cancel_left (this.trans hsplit)
    rw [hdrop, List.head?_drop, hg'] at hhead
    exact hhead
  simp only [Glyph.isKind, beq_iff_eq] at hkind
  simp only [Glyph.isKind, beq_eq_false_iff_ne] at hstop
  exact hstop (hgk'.trans (hgk.symm.trans hkind))

/-- A group ends with its closer. -/
theorem groupLength? (hk : k ≠ .closer) {c : Char} {n : Nat}
    (h : Grammar.groupLength? c gs = some n) : EndsRun k gs n := by
  rcases gs with _ | ⟨g, gs⟩
  · simp [Grammar.groupLength?] at h
  simp only [Grammar.groupLength?] at h
  split_ifs at h
  obtain ⟨d, hd, rfl⟩ := Option.map_eq_some_iff.mp h
  obtain ⟨o, c, b, u, v, hgs, -, hc, -, rfl⟩ := exists_group_of_groupEnd? hd
  intro _ hover
  have hlast := (Source.runsOver_succ.mp hover).1
  rw [hgs, List.getElem?_cons_succ, List.getElem?_append_right (Nat.le_refl _), Nat.sub_self,
    List.getElem?_cons_zero, Option.map_some, Option.some_inj, Glyph.kind, hc] at hlast
  exact hk hlast.symm

end EndsRun

/-- **No run but of closers goes on where a grammar stops reading.** -/
theorem Grammar.consume_endsRun {k : Kind} (hk : k ≠ .closer) {g : Grammar} {gs : List Glyph}
    {n : Nat} (h : g.consume gs = some n) : EndsRun k gs n := by
  have hleaves : g.LeavesRead (EndsRun k) := by
    clear h
    induction g with
    | empty | fail => trivial
    | seq g h ihg ihh | alt g h ihg ihh => exact ⟨ihg, ihh⟩
    | opt g ih | many g ih => exact ih
    | run k' => exact EndsRun.run k k'
    | word t => exact EndsRun.run k .symbol
    | group c | groupWith c more => exact fun gs n => EndsRun.groupLength? hk
  exact consume_of_leaves (EndsRun.zero k) EndsRun.add hleaves h

/-- A run that reaches over the position goes on there. -/
theorem Source.runsOver_of_run {src : Source} {k : Kind} {i j p : Nat} (hi : i < p) (hj : p < j)
    (h : ∀ x, i ≤ x → x < j → src.kind? x = some k) : src.RunsOver k p := by
  refine ⟨?_, h p (Nat.le_of_lt hi) hj⟩
  have hbefore : (p : Int) - 1 = (p - 1 : Nat) := by omega
  rw [hbefore]
  exact h (p - 1) (by omega) (by omega)

/-! ### Spellings in a source -/

namespace Spelling

/-- The occurrences of the spelling from left to right, without overlap. The text starts at the
position `pos`; `left` counts the characters that the occurrence begun before it still covers, and
`before` is the character before it. -/
def occurrencesFrom (s : Spelling) : Nat → Nat → Option Char → Text → List Extent
  | _, _, _, [] => []
  | pos, left + 1, _, c :: t => s.occurrencesFrom (pos + 1) left (some c) t
  | pos, 0, before, c :: t =>
    match s.length? before (c :: t) with
    | some (n + 1) => ⟨pos, pos + (n + 1)⟩ :: s.occurrencesFrom (pos + 1) n (some c) t
    | _ => s.occurrencesFrom (pos + 1) 0 (some c) t

/-- The occurrences of the spelling in a text. -/
def occurrences (s : Spelling) (t : Text) : List Extent := s.occurrencesFrom 0 0 none t

theorem length?_le {s : Spelling} {before : Option Char} {t : Text} {n : Nat}
    (h : s.length? before t = some n) : n ≤ t.length := by
  obtain ⟨rest, -, rfl⟩ := Option.map_eq_some_iff.mp h
  exact Nat.sub_le _ _

/-- What is left of an occurrence is marked. -/
theorem coveredFrom_left (s : Spelling) {t : Text} : ∀ {left x : Nat} {before : Option Char},
    x < left → x < t.length → (s.coveredFrom left before t)[x]? = some true := by
  induction t with
  | nil => intro left x before _ hx; exact absurd hx (Nat.not_lt_zero x)
  | cons c t ih =>
    intro left x before hleft hx
    obtain ⟨left, rfl⟩ : ∃ n, left = n + 1 := ⟨left - 1, by omega⟩
    rw [coveredFrom]
    rcases x with _ | x
    · rfl
    · rw [List.getElem?_cons_succ]
      exact ih (by omega) (by simpa using hx)

/-- **Every occurrence is marked**, and lies in the text. -/
theorem coveredFrom_of_mem {s : Spelling} {t : Text} :
    ∀ {pos left : Nat} {before : Option Char} {e : Extent},
      e ∈ s.occurrencesFrom pos left before t → pos ≤ e.start ∧ e.stop ≤ pos + t.length ∧
        ∀ x, e.start ≤ pos + x → pos + x < e.stop →
          (s.coveredFrom left before t)[x]? = some true := by
  induction t with
  | nil => intro pos left before e he; cases left <;> cases he
  | cons c t ih =>
    intro pos left before e he
    -- an occurrence behind the first character is one of the rest
    have hbehind : ∀ {m : Nat} {first : Bool}, e ∈ s.occurrencesFrom (pos + 1) m (some c) t →
        pos ≤ e.start ∧ e.stop ≤ pos + (c :: t).length ∧ ∀ x, e.start ≤ pos + x →
          pos + x < e.stop → (first :: s.coveredFrom m (some c) t)[x]? = some true := by
      intro m first hmem
      obtain ⟨h1, h2, h3⟩ := ih hmem
      refine ⟨by omega, by rw [List.length_cons]; omega, fun x hx hx' => ?_⟩
      obtain ⟨y, rfl⟩ : ∃ y, x = y + 1 := ⟨x - 1, by omega⟩
      rw [List.getElem?_cons_succ]
      exact h3 y (by omega) (by omega)
    rcases left with _ | left
    · cases hn : s.length? before (c :: t) with
      | none =>
        rw [occurrencesFrom, hn] at he
        rw [coveredFrom, hn]
        exact hbehind he
      | some n =>
        rw [occurrencesFrom, hn] at he
        rw [coveredFrom, hn]
        cases n with
        | zero => exact hbehind he
        | succ n =>
          rcases List.mem_cons.mp he with rfl | he
          · have hlen := length?_le hn
            rw [List.length_cons] at hlen
            refine ⟨Nat.le_refl _, by simp only [List.length_cons]; omega, fun x _ hx => ?_⟩
            have hmarks : (true :: s.coveredFrom n (some c) t) =
                s.coveredFrom (n + 1) before (c :: t) := rfl
            simp only at hx ⊢
            rw [hmarks]
            exact s.coveredFrom_left (by omega) (by simp only [List.length_cons]; omega)
          · exact hbehind he
    · rw [coveredFrom]
      exact hbehind he

end Spelling

theorem spelled_of_covered {s : Spelling} {t : Text} {x : Nat} (hs : s ∈ Spelling.all)
    (h : (s.covered t)[x]? = some true) : (spelled t)[x]? = some true := by
  have hx : x < t.length := by
    obtain ⟨hlt, -⟩ := List.getElem?_eq_some_iff.mp h
    rwa [Spelling.length_covered] at hlt
  -- a mark once set stays
  have hmarks : ∀ (l : List Spelling) (marks : List Bool), marks.length = t.length →
      (marks[x]? = some true ∨ s ∈ l) →
        (l.foldl (fun marks s => List.zipWith or marks (s.covered t)) marks)[x]? = some true := by
    intro l
    induction l with
    | nil => intro marks _ hor; simpa using hor
    | cons s' l ih =>
      intro marks hlen hor
      rw [List.foldl_cons]
      refine ih _ (by simp [hlen]) ?_
      have hc' : ∃ b, (s'.covered t)[x]? = some b :=
        ⟨_, List.getElem?_eq_getElem (by rwa [Spelling.length_covered])⟩
      have hm' : ∃ b, marks[x]? = some b := ⟨_, List.getElem?_eq_getElem (by omega)⟩
      obtain ⟨b, hb⟩ := hc'
      obtain ⟨b', hb'⟩ := hm'
      rw [List.getElem?_zipWith, hb, hb']
      rcases hor with hor | hor
      · left
        rw [hb', Option.some_inj] at hor
        simp [hor]
      · rcases List.mem_cons.mp hor with rfl | hor
        · left
          rw [h, Option.some_inj] at hb
          simp [← hb]
        · exact Or.inr hor
  exact hmarks Spelling.all _ (by simp) (Or.inr hs)

/-- **An occurrence of a spelling reads as one symbol.** -/
theorem Spelling.kind?_of_mem_occurrences {s : Spelling} {t : Text} {e : Extent}
    (hs : s ∈ Spelling.all) (he : e ∈ s.occurrences t) {x : Nat} (h1 : e.start ≤ x)
    (h2 : x < e.stop) : (Source.ofText t).kind? x = some .symbol := by
  obtain ⟨-, hstop, hmarked⟩ := coveredFrom_of_mem he
  have hcovered := hmarked x (by omega) (by omega)
  have hspelled := spelled_of_covered hs hcovered
  have hx : x < t.length := by omega
  unfold Source.kind? Source.ofText
  rw [if_neg (by omega), Int.toNat_natCast, List.getElem?_zipWith, hspelled,
    List.getElem?_eq_getElem hx]
  rfl

/-! ### The cut of a match -/

/-- **A clean cut of a text**: its groups, its runs and the spellings in it lie on one side of the
position. -/
structure CleanCut (t : Text) (p : Nat) : Prop where
  group : ∀ i j, (Source.ofText t).GroupAt i j → (i < p ↔ j < p)
  run : ∀ k, k ≠ .closer → ∀ i j, i < p → p < j →
    ¬ ∀ x, i ≤ x → x < j → (Source.ofText t).kind? x = some k
  spelling : ∀ (s : Spelling), ∀ e ∈ s.occurrences t, ¬ (e.start < p ∧ p < e.stop)

theorem Match.cleanCut_of_best? {t : Text} {m : Match}
    (h : Match.best? (Source.ofText t) = some m) : CleanCut t m.length := by
  obtain ⟨hpos, hle, hbal⟩ := balanced_of_best? h
  have hrun : ∀ k, k ≠ .closer → ¬ (Source.ofText t).RunsOver k m.length := by
    intro k hk
    obtain ⟨r, hr⟩ := exists_of?_of_best? h
    unfold Match.of? at hr
    split at hr
    · next n hn =>
      obtain rfl : ⟨r, n + 1⟩ = m := by simpa using hr
      exact Grammar.consume_endsRun hk hn hpos
    · simp at hr
  refine ⟨fun i j hg => ?_, fun k hk i j hi hj hall => ?_, fun s e he hover => ?_⟩
  · have hlt := hg.lt
    constructor
    · exact hbal.closer_lt hle hg (Nat.zero_le i)
    · intro hj
      omega
  · exact hrun k hk (Source.runsOver_of_run hi hj hall)
  · have hs : s ∈ Spelling.all := by cases s <;> simp [Spelling.all]
    refine hrun .symbol (by simp) (Source.runsOver_of_run hover.1 hover.2 fun x h1 h2 => ?_)
    exact Spelling.kind?_of_mem_occurrences hs he h1 h2

/-- **Reading cuts cleanly.** Whatever a grammar reads at a position of a source is nested, and
where it has read something and stops no run goes on, be it of symbol glyphs, of spaces or of any
other kind but closers. In particular a match is cut out of its text at a place where no group, no
such run and no spelling is cut in two. -/
theorem reading_cuts_cleanly :
    (∀ g : Grammar, g.RunsPlain → ∀ (src : Source) (pos p : Nat), g.parse src pos = (true, p) →
      Nested Glyph.cls (src.window ⟨pos, p⟩) ∧
      (pos < p → ∀ k, k ≠ .closer → ¬ src.RunsOver k p)) ∧
    ∀ (t : Text) (m : Match), Match.best? (Source.ofText t) = some m → CleanCut t m.length := by
  refine ⟨fun g hg src pos p hp => ?_, fun t m hm => Match.cleanCut_of_best? hm⟩
  obtain ⟨n, hn, rfl⟩ := Grammar.parse_eq_true.mp hp
  obtain ⟨-, hnested⟩ := Grammar.consume_nested hg hn
  refine ⟨?_, fun hlt k hk hover => ?_⟩
  · rw [Source.window, Nat.add_sub_cancel_left]
    exact hnested
  · obtain ⟨m, rfl⟩ : ∃ m, n = m + 1 := ⟨n - 1, by omega⟩
    refine Grammar.consume_endsRun hk hn (Nat.succ_pos m) (Source.runsOver_succ.mpr ?_)
    rw [List.getElem?_drop, List.getElem?_drop, ← Nat.add_assoc]
    exact Source.runsOver_succ.mp hover

/-- A comparison with a literal in its parameter is cut behind the blank that follows the group. Of
the bracket characters, only those of the parameters and of the template arguments are brackets. -/
theorem reading_cuts_cleanly_comparison :
    let t := "bool operator<(T<'('> x) = default".toList
    Match.best? (Source.ofText t) = some ⟨.function, 25⟩ ∧
      Spelling.operatorName.occurrences t = [⟨5, 14⟩] ∧ CleanCut t 25 ∧
      Dialect.parameters.parse (Source.ofText t) 14 = (true, 25) ∧
      Nested Glyph.cls ((Source.ofText t).window ⟨14, 25⟩) ∧
      ¬ (Source.ofText t).RunsOver .space 25 := by
  intro t
  have hbest : Match.best? (Source.ofText t) = some ⟨.function, 25⟩ := by decide +kernel
  have hparse : Dialect.parameters.parse (Source.ofText t) 14 = (true, 25) := by decide +kernel
  have hplain : Dialect.parameters.RunsPlain := by
    simp [Dialect.parameters, Dialect.arrowReturn, Dialect.type, Dialect.withGroup,
      Dialect.memberQualifier, Dialect.memberQualifiers, Dialect.decltypeOf,
      Dialect.templateArguments, Dialect.qualifier, Dialect.qualifiers, Dialect.referenceMarks,
      Grammar.RunsPlain, Grammar.seqs, Grammar.alts, Grammar.symbol, Grammar.spaces,
      Grammar.anyWord, Grammar.spacedWord]
  obtain ⟨hnested, hruns⟩ := reading_cuts_cleanly.1 _ hplain _ 14 25 hparse
  exact ⟨hbest, by decide +kernel, reading_cuts_cleanly.2 t _ hbest, hparse, hnested,
    hruns (by decide) .space (by decide)⟩

end DiagLayout
