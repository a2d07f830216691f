import DiagLayout.Proofs.CleanCuts
import DiagLayout.Proofs.Expressions

/-!
# The substitutions that a function is read with

A reading goes through the parts of its grammar. `Grammar.ReadsPart` says which part was read from
where to where, for the parts that the outcome rests on: what was tried and given up does not count.

* `Grammar.Reads.exists_opens`: an opener outside all groups was read by a part that takes a group;
* `Grammar.ReadsPart.stop_eq`: a part that stands last in a grammar is read up to the end.

In the grammar of functions only one part takes a group in square brackets, and it stands last. So
the group of substitutions, found again by a look at the tokens, is what this part has read. The
main result is `with_group_is_what_was_read`.
-/

namespace DiagLayout

/-! ### Groups that are read -/

theorem Source.groupAt_of_groupEnd? {src : Source} {p d : Nat}
    (h : groupEnd? (src.drop p) = some d) : src.GroupAt p (p + d) := by
  obtain ⟨o, c, b, u, v, hgs, ho, hc, hu, rfl⟩ := exists_group_of_groupEnd? h
  have hat : ∀ n, src[p + n]? = (o :: (u ++ c :: v))[n]? := by
    intro n
    rw [← hgs, List.getElem?_drop]
  refine ⟨b, o, c, hat 0, ho, ?_, hc, by omega, ?_⟩
  · rw [hat, List.getElem?_cons_succ, List.getElem?_append_right (Nat.le_refl _), Nat.sub_self]
    rfl
  · have hdrop : src.drop (p + 1) = u ++ c :: v := by
      rw [← List.drop_drop, hgs]
      rfl
    rw [window, hdrop, show p + (u.length + 1) - (p + 1) = u.length by omega, List.take_left]
    exact hu

/-- Of the positions of a group only that of its opener is outside. -/
theorem Source.GroupAt.eq_of_balanced {src : Source} {i p q x : Nat} (h : src.GroupAt p q)
    (hx : src.Balanced i x) (hp : src.Balanced i p) (hle : p ≤ x) (hq : x ≤ q) : x = p := by
  by_contra hne
  have hdepth := h.depthFrom_le hp.le (show p < x by omega) hq
  rw [h.depthFrom_succ hp.le, hx.depthFrom_eq (Nat.le_refl i),
    hp.depthFrom_eq (Nat.le_refl i)] at hdepth
  omega

namespace Grammar

/-! ### The parts of a grammar -/

/-- The grammar and all that it is put together from. -/
def parts : Grammar → List Grammar
  | seq g h => seq g h :: (g.parts ++ h.parts)
  | alt g h => alt g h :: (g.parts ++ h.parts)
  | opt g => opt g :: g.parts
  | many g => many g :: g.parts
  | g => [g]

/-- The grammar takes a whole group that starts with the character. -/
def opens (c : Char) : Grammar → Bool
  | group c' => c' == c
  | groupWith c' _ => c' == c
  | _ => false

/-- Nothing is read behind the part `x`, wherever it stands in the grammar. -/
def lastIn (x : Grammar) : Grammar → Bool
  | seq g h => (!g.parts.contains x && lastIn x h) || (lastIn x g && h == empty)
  | alt g h => lastIn x g && lastIn x h
  | opt g => lastIn x g
  | many g => !g.parts.contains x
  | _ => true

theorem self_mem_parts (g : Grammar) : g ∈ g.parts := by
  cases g <;> simp [parts]

/-- **The parts of a reading**: where `g` is read at `i` and applies, its part `x` is read from `p`
to `q`. -/
inductive ReadsPart (src : Source) : Grammar → Nat → Grammar → Nat → Nat → Prop
  | self {g : Grammar} {i j : Nat} (h : Reads src g i (true, j)) : ReadsPart src g i g i j
  | seqFirst {g h x : Grammar} {i j k p q : Nat} (hg : Reads src g i (true, j))
      (hh : Reads src h j (true, k)) (hx : ReadsPart src g i x p q) :
      ReadsPart src (.seq g h) i x p q
  | seqSecond {g h x : Grammar} {i j p q : Nat} (hg : Reads src g i (true, j))
      (hx : ReadsPart src h j x p q) : ReadsPart src (.seq g h) i x p q
  | altFirst {g h x : Grammar} {i p q : Nat} (hx : ReadsPart src g i x p q) :
      ReadsPart src (.alt g h) i x p q
  | altSecond {g h x : Grammar} {i j p q : Nat} (hg : Reads src g i (false, j))
      (hx : ReadsPart src h i x p q) : ReadsPart src (.alt g h) i x p q
  | opt {g x : Grammar} {i p q : Nat} (hx : ReadsPart src g i x p q) :
      ReadsPart src (.opt g) i x p q
  | manyFirst {g x : Grammar} {i p q : Nat} (hx : ReadsPart src g i x p q) :
      ReadsPart src (.many g) i x p q
  -- a round that stays does not count
  | manyMore {g x : Grammar} {i j k p q : Nat} (hg : Reads src g i (true, j))
      (hs : Reads src g j (true, k)) (hne : k ≠ j) (hx : ReadsPart src (.many g) j x p q) :
      ReadsPart src (.many g) i x p q

section Parts

variable {src : Source} {g x : Grammar} {i j p q : Nat}

theorem balanced_of_parse (hg : g.RunsPlain) (h : g.parse src i = (true, j)) :
    src.Balanced i j := by
  obtain ⟨n, hn, rfl⟩ := parse_eq_true.mp h
  refine ⟨Nat.le_add_right i n, ?_⟩
  rw [Source.window, Nat.add_sub_cancel_left]
  exact (consume_nested hg hn).2

namespace ReadsPart

theorem mem_parts (h : ReadsPart src g i x p q) : x ∈ g.parts := by
  induction h with
  | self _ => exact self_mem_parts _
  | seqFirst _ _ _ ih => simp [parts, ih]
  | seqSecond _ _ ih => simp [parts, ih]
  | altFirst _ ih => simp [parts, ih]
  | altSecond _ _ ih => simp [parts, ih]
  | opt _ ih => simp [parts, ih]
  | manyFirst _ ih => simp [parts, ih]
  | manyMore _ _ _ _ ih => exact ih

/-- A part of a reading is read, and the whole applies. -/
theorem parse_eq (h : ReadsPart src g i x p q) :
    x.parse src p = (true, q) ∧ ∃ j, g.parse src i = (true, j) := by
  induction h with
  | self h => exact ⟨h.parse_eq, _, h.parse_eq⟩
  | seqFirst hg hh _ ih => exact ⟨ih.1, _, (Reads.seq hg hh).parse_eq⟩
  | seqSecond hg _ ih =>
    obtain ⟨hx, k, hk⟩ := ih
    exact ⟨hx, k, (Reads.seq hg (hk ▸ reads_parse src _ _)).parse_eq⟩
  | altFirst _ ih =>
    obtain ⟨hx, j, hj⟩ := ih
    exact ⟨hx, j, by rw [parse_alt, hj]⟩
  | altSecond hg _ ih =>
    obtain ⟨hx, j, hj⟩ := ih
    exact ⟨hx, j, by rw [parse_alt, hg.parse_eq]; exact hj⟩
  | opt _ ih =>
    obtain ⟨hx, j, hj⟩ := ih
    exact ⟨hx, j, by rw [parse_opt, hj]⟩
  | manyFirst _ ih =>
    obtain ⟨hx, j, hj⟩ := ih
    exact ⟨hx, _, parse_many hj⟩
  | manyMore hg hs hne _ ih =>
    exact ⟨ih.1, _, parse_many hg.parse_eq⟩

/-- What is read before a part is balanced. -/
theorem balanced (h : ReadsPart src g i x p q) : g.RunsPlain → src.Balanced i p := by
  induction h with
  | self _ => exact fun _ => .refl _
  | seqFirst _ _ _ ih => exact fun hp => ih hp.1
  | seqSecond hg _ ih => exact fun hp => (balanced_of_parse hp.1 hg.parse_eq).trans (ih hp.2)
  | altFirst _ ih => exact fun hp => ih hp.1
  | altSecond _ _ ih => exact fun hp => ih hp.2
  | opt _ ih => exact ih
  | manyFirst _ ih => exact ih
  | @manyMore g _ _ _ _ _ _ hg _ _ _ ih =>
    exact fun hp => (balanced_of_parse (show g.RunsPlain from hp) hg.parse_eq).trans (ih hp)

/-- **A part that stands last is read up to the end.** -/
theorem stop_eq (h : ReadsPart src g i x p q) : lastIn x g = true →
    g.parse src i = (true, j) → q = j := by
  induction h with
  | self h =>
    intro _ hj
    rw [h.parse_eq] at hj
    cases hj
    rfl
  | @seqFirst g h x i k l p q hg hh hx ih =>
    intro hlast hj
    have hmem := hx.mem_parts
    simp only [lastIn, Bool.or_eq_true, Bool.and_eq_true, Bool.not_eq_true', beq_iff_eq,
      List.contains_eq_mem, decide_eq_false_iff_not] at hlast
    rcases hlast with ⟨hnot, -⟩ | ⟨hlast, rfl⟩
    · exact absurd hmem hnot
    · have hend := hh.parse_eq
      rw [(Reads.seq hg hh).parse_eq] at hj
      cases hj
      obtain ⟨n, hn, rfl⟩ := parse_eq_true.mp hend
      obtain rfl : 0 = n := by simpa [consume] using hn
      exact ih hlast hg.parse_eq
  | @seqSecond g h x i k p q hg hx ih =>
    intro hlast hj
    have hrest : lastIn x h = true := by
      simp only [lastIn, Bool.or_eq_true, Bool.and_eq_true, beq_iff_eq] at hlast
      rcases hlast with ⟨-, hlast⟩ | ⟨-, rfl⟩
      · exact hlast
      · rfl
    obtain ⟨-, l, hl⟩ := hx.parse_eq
    rw [parse_seq, hg.parse_eq] at hj
    simp only [hl] at hj
    cases hj
    exact ih hrest hl
  | altFirst hx ih =>
    intro hlast hj
    obtain ⟨-, l, hl⟩ := hx.parse_eq
    rw [parse_alt, hl] at hj
    cases hj
    exact ih (by simp_all [lastIn]) hl
  | altSecond hg hx ih =>
    intro hlast hj
    rw [parse_alt, hg.parse_eq] at hj
    exact ih (by simp_all [lastIn]) hj
  | opt hx ih =>
    intro hlast hj
    obtain ⟨-, l, hl⟩ := hx.parse_eq
    rw [parse_opt, hl] at hj
    cases hj
    exact ih hlast hl
  | manyFirst hx _ =>
    intro hlast _
    simp [lastIn, hx.mem_parts] at hlast
  | @manyMore g x i k l p q hg hs hne hx ih =>
    intro hlast hj
    rw [parse_many_more hg.parse_eq hs.parse_eq hne] at hj
    exact ih hlast hj

end ReadsPart

/-- A run holds no opener. -/
theorem not_opener_of_pastRun {k : Kind} (hk : k ≠ .opener)
    (h : src.pastRun k ⟨i, src.length⟩ = .ok j) {o : Glyph} {b : Bracket} (ho : src[p]? = some o)
    (hob : o.cls = .opener b) (hi : i ≤ p) : j ≤ p := by
  by_contra hcon
  rw [pastRun_length] at h
  cases h
  have hmem : o ∈ (src.drop i).take (runLength k (src.drop i)) := by
    refine List.mem_of_getElem? (i := p - i) ?_
    rw [List.getElem?_take, if_pos (by omega), List.getElem?_drop, Nat.add_sub_cancel' hi, ho]
  rw [take_runLength] at hmem
  have hkind := List.mem_takeWhile_imp hmem
  simp only [Glyph.isKind, Glyph.kind, hob, CharClass.kind, beq_iff_eq] at hkind
  exact hk hkind.symm

theorem eq_of_findCloser {k : Nat} (h : src.findCloser i src.length = .ok (some k))
    (hp : src.Balanced i p) (hk : p < k + 1) : p = i := by
  rw [findCloser_length] at h
  obtain ⟨d, hd, rfl⟩ := Option.map_eq_some_iff.mp (Except.ok.inj h)
  exact (Source.groupAt_of_groupEnd? hd).eq_of_balanced hp (.refl i) hp.le (by omega)

/-- **An opener outside all groups was read by a part that takes a group.** -/
theorem Reads.exists_opens {r : Bool × Nat} (h : Reads src g i r) {o : Glyph} {b : Bracket}
    (ho : src[p]? = some o) (hob : o.cls = .opener b) : ∀ {j : Nat}, g.RunsPlain → r = (true, j) →
      src.Balanced i p → p < j → ∃ x q, ReadsPart src g i x p q ∧ x.opens o.char = true := by
  induction h with
  | empty =>
    intro j _ hr hp hlt
    cases hr
    have := hp.le
    omega
  | @seq g h i k _ hg hh ihg ihh =>
    intro j hplain hr hp hlt
    cases hr
    rcases Nat.lt_or_ge p k with hk | hk
    · obtain ⟨x, q, hx, hopens⟩ := ihg hplain.1 rfl hp hk
      exact ⟨x, q, .seqFirst hg hh hx, hopens⟩
    · have hfirst := balanced_of_parse hplain.1 hg.parse_eq
      obtain ⟨x, q, hx, hopens⟩ := ihh hplain.2 rfl (hfirst.tail hp hk) hlt
      exact ⟨x, q, .seqSecond hg hx, hopens⟩
  | altFirst hg ih =>
    intro j hplain hr hp hlt
    cases hr
    obtain ⟨x, q, hx, hopens⟩ := ih hplain.1 rfl hp hlt
    exact ⟨x, q, .altFirst hx, hopens⟩
  | altSecond hg hh _ ih =>
    intro j hplain hr hp hlt
    cases hr
    obtain ⟨x, q, hx, hopens⟩ := ih hplain.2 rfl hp hlt
    exact ⟨x, q, .altSecond hg hx, hopens⟩
  | opt hg ih =>
    intro j hplain hr hp hlt
    cases hr
    obtain ⟨x, q, hx, hopens⟩ := ih hplain rfl hp hlt
    exact ⟨x, q, .opt hx, hopens⟩
  | optNone _ _ =>
    intro j _ hr hp hlt
    cases hr
    have := hp.le
    omega
  | manyLast hg hs ihg ihs =>
    intro j hplain hr hp hlt
    cases hr
    obtain ⟨x, q, hx, hopens⟩ := ihg hplain rfl hp hlt
    exact ⟨x, q, .manyFirst hx, hopens⟩
  | manyStill hg hs ihg ihs =>
    intro j hplain hr hp hlt
    cases hr
    obtain ⟨x, q, hx, hopens⟩ := ihg hplain rfl hp hlt
    exact ⟨x, q, .manyFirst hx, hopens⟩
  | @manyMore g i k _ _ hg hs hne hm ihg ihs ihm =>
    intro j hplain hr hp hlt
    cases hr
    rcases Nat.lt_or_ge p k with hk | hk
    · obtain ⟨x, q, hx, hopens⟩ := ihg hplain rfl hp hk
      exact ⟨x, q, .manyFirst hx, hopens⟩
    · have hfirst := balanced_of_parse (show g.RunsPlain from hplain) hg.parse_eq
      obtain ⟨x, q, hx, hopens⟩ := ihm hplain rfl (hfirst.tail hp hk) hlt
      exact ⟨x, q, .manyMore hg hs hne hx, hopens⟩
  | run hrun _ =>
    intro j hplain hr hp hlt
    cases hr
    have := not_opener_of_pastRun hplain.1 hrun ho hob hp.le
    omega
  | word hrun _ =>
    intro j hplain hr hp hlt
    cases hr
    have := not_opener_of_pastRun (by simp) hrun ho hob hp.le
    omega
  | group hc hclose =>
    intro j _ hr hp hlt
    cases hr
    obtain rfl := eq_of_findCloser hclose hp hlt
    refine ⟨_, _, .self (.group hc hclose), ?_⟩
    rw [Source.text, Glyph.text, List.getElem?_map, ho] at hc
    simpa [opens] using hc.symm
  | groupWith hs hg ih =>
    intro j hplain hr hp hlt
    subst hr
    obtain ⟨x, q, hx, hopens⟩ := ih trivial rfl hp hlt
    cases hx with
    | self hself => exact ⟨_, _, .self (.groupWith hs hself), hopens⟩
  | fail | seqFirst _ _ | seqSecond _ _ _ _ | altNone _ _ _ _ | manyNone _ _ | runNone _
  | wordNone _ _ | groupOther _ | groupNone _ | groupWithNone _ =>
    intro j _ hr
    cases hr

end Parts

end Grammar

/-! ### Square brackets in the grammars -/

namespace Dialect

theorem lastIn_withGroup : Grammar.lastIn withGroup function = true := by decide +kernel

/-- Of the parts of a function only one takes a group in square brackets. -/
theorem eq_withGroup_of_opens :
    ∀ x ∈ function.parts, x.opens '[' = true → x = withGroup := by decide +kernel

theorem opens_eq_false_of_mem_type : ∀ x ∈ type.parts, x.opens '[' = false := by decide +kernel

end Dialect

namespace Match

theorem of?_eq_some_iff {r : Reading} {src : Source} {m : Match} :
    Match.of? r src = some m ↔
      m.reading = r ∧ 0 < m.length ∧ r.grammar.parse src 0 = (true, m.length) := by
  rw [Grammar.parse_eq_true]
  constructor
  · intro h
    unfold Match.of? at h
    split at h
    · next n hn =>
      cases h
      exact ⟨rfl, Nat.succ_pos n, n + 1, hn, (Nat.zero_add _).symm⟩
    · cases h
  · rintro ⟨rfl, hpos, n, hn, hlen⟩
    obtain ⟨k, rfl⟩ : ∃ k, n = k + 1 := ⟨n - 1, by omega⟩
    unfold Match.of?
    rw [show src.drop 0 = src from rfl] at hn
    simp only [hn]
    rw [show k + 1 = m.length by omega]

theorem parse_of_best? {src : Source} {m : Match} (h : Match.best? src = some m) :
    m.reading.grammar.parse src 0 = (true, m.length) := by
  obtain ⟨r, hr⟩ := exists_of?_of_best? h
  obtain ⟨rfl, -, hparse⟩ := of?_eq_some_iff.mp hr
  exact hparse

/-- A function gives way only to a longer type. -/
theorem best?_of_function {src : Source} {f m : Match} (hf : Match.of? .function src = some f)
    (h : Match.best? src = some m) : m = f ∨ (m.reading = .type ∧ f.length < m.length) := by
  unfold Match.best? at h
  rw [hf] at h
  simp only at h
  split_ifs at h
  · exact Or.inl (Option.some.inj h).symm
  · split at h
    · exact Or.inl (Option.some.inj h).symm
    · next t ht =>
      split_ifs at h with hlt
      · cases h
        exact Or.inr ⟨(of?_eq_some_iff.mp ht).1, hlt⟩
      · exact Or.inl (Option.some.inj h).symm

end Match

/-! ### The group found and the group read -/

section Found

variable {src : Source} {m : Match} {p q : Nat}

/-- The opener of a group of substitutions is a square bracket. -/
theorem Source.exists_bracket_of_opening (hp : src.GroupAt p q)
    (h : Text.startsWith (Glyph.text (src.drop p)) Dialect.withOpening = true) :
    ∃ o b, src[p]? = some o ∧ o.cls = .opener b ∧ o.char = '[' := by
  obtain ⟨b, o, c, ho, hob, -⟩ := hp
  refine ⟨o, b, ho, hob, ?_⟩
  obtain ⟨rest, hrest⟩ := Option.isSome_iff_exists.mp h
  have htext : (src.drop p).map Glyph.char = Dialect.withOpening ++ rest :=
    Text.eq_append_of_after? hrest
  have hhead := congrArg List.head? htext
  rw [List.head?_map, List.head?_drop, ho] at hhead
  exact Option.some.inj hhead

/-- What the grammar reads as substitutions is a group that starts with the opening. -/
theorem Grammar.groupAt_of_parse_withGroup (h : Dialect.withGroup.parse src p = (true, q)) :
    src.GroupAt p (q - 1) ∧ 0 < q ∧
      Text.startsWith (Glyph.text (src.drop p)) Dialect.withOpening = true := by
  have hreads := reads_parse src Dialect.withGroup p
  rw [h] at hreads
  cases hreads with
  | groupWith hs hg =>
    cases hg with
    | group hc hclose =>
      rw [findCloser_length] at hclose
      obtain ⟨d, hd, rfl⟩ := Option.map_eq_some_iff.mp (Except.ok.inj hclose)
      refine ⟨Source.groupAt_of_groupEnd? hd, Nat.succ_pos _, ?_⟩
      rw [Glyph.text, List.map_drop]
      exact hs

/-- Behind its first glyph a token has no brackets. -/
theorem Token.At.not_isBracket {t : Token} {i : Nat} (ht : t.At src i) {g : Glyph}
    (hg : src[p]? = some g) (hlt : i < p) (hp : p < t.stop) : g.cls.isBracket = false := by
  obtain ⟨first, tail, hglyphs, -, htail, -⟩ := ht.formed
  have hstart := ht.start_eq
  refine htail g ?_
  have hwindow : tail = src.window ⟨t.start + 1, t.stop⟩ := by
    rw [show tail = t.glyphs.drop 1 by rw [hglyphs]; rfl, ht.reads, Source.window, Source.window,
      List.drop_take, List.drop_drop]
    rfl
  rw [hwindow]
  exact Source.mem_window hg (by omega) hp

/-- An opener outside all groups is among the tokens outside all groups. -/
theorem Laid.exists_head_of_opener {i j : Nat} {f : Forest Token} (h : Laid src i f j) {o : Glyph}
    {b : Bracket} (ho : src[p]? = some o) (hob : o.cls = .opener b) : src.Balanced i p → p < j →
      ∃ t ∈ f.heads, t.start = p ∧ t.kind = .opener := by
  have hbr : ¬ o.cls.isBracket = false := by simp [hob, CharClass.isBracket]
  induction h with
  | nil =>
    intro hp hlt
    have := hp.le
    omega
  | @item i j t rest ht hb hr ih =>
    intro hp hlt
    have hle : t.stop ≤ p := by
      by_contra hcon
      exact hbr (ht.formed.glyphs_item hb o (ht.reads ▸ Source.mem_window ho
        (by rw [ht.start_eq]; exact hp.le) (by omega)))
    obtain ⟨x, hx, hstart⟩ := ih ((ht.balanced hb).tail hp hle) hlt
    exact ⟨x, List.mem_cons_of_mem _ hx, hstart⟩
  | @group i j b' first last inner rest hfirst hfb hinner hlast hlb hr _ ihr =>
    intro hp hlt
    obtain ⟨hi, -, -, hlt', -⟩ := Laid.group_bounds hfirst hfb hinner hlast hr
    by_cases hpi : p = i
    · exact ⟨first, List.mem_cons_self, by omega, hfirst.formed.kind_opener hfb⟩
    · have hgroup := Laid.groupAt hfirst hfb hinner hlast hlb
      have hle : last.stop ≤ p := by
        by_contra hcon
        rcases Nat.lt_or_ge last.start p with hin | hin
        · exact hbr (hlast.not_isBracket ho hin (by omega))
        · have := hgroup.eq_of_balanced hp (hi ▸ .refl _) (by have := hp.le; omega) hin
          omega
      obtain ⟨x, hx, hstart⟩ :=
        ihr ((Laid.balanced_group hfirst hfb hinner hlast hlb).tail hp hle) hlt
      exact ⟨x, List.mem_cons_of_mem _ hx, hstart⟩

/-- A group outside all others that starts with the opening is not overlooked. -/
theorem Source.substitutionGroup?_ne_none {e : Extent} (h : src.Balanced e.start e.stop)
    (hlen : e.stop ≤ src.length) (hp : src.Balanced e.start p) (hq : q < e.stop)
    (hgroup : src.GroupAt p q)
    (hopen : Text.startsWith (Glyph.text (src.drop p)) Dialect.withOpening = true) :
    src.substitutionGroup? e ≠ .ok none := by
  obtain ⟨f, hheads, hl⟩ := exists_heads h hlen
  have hlt := hgroup.lt
  obtain ⟨b, o, c, ho, hob, -⟩ := id hgroup
  obtain ⟨t, ht, rfl, hk⟩ := hl.exists_head_of_opener ho hob hp (by omega)
  simp only [substitutionGroup?, readTokens_eq_ok hlen, hheads, bind, Except.bind]
  intro hnone
  have hnot := List.findSome?_eq_none_iff.mp (Except.ok.inj hnone) t ht
  rw [substitutionGroupAt?, if_pos ⟨hk, hopen⟩, hgroup.groupEnd?_window hq] at hnot
  cases hnot

/-- The group that the grammar of functions reads as substitutions. -/
def Source.ReadsSubstitutions (src : Source) (g : Extent) : Prop :=
  Grammar.ReadsPart src Dialect.function 0 Dialect.withGroup g.start g.stop

theorem Source.ReadsSubstitutions.isSubstitutionGroup {g : Extent}
    (h : src.ReadsSubstitutions g) : src.IsSubstitutionGroup ⟨0, g.stop⟩ g := by
  obtain ⟨hgroup, -, hopen⟩ := Grammar.groupAt_of_parse_withGroup h.parse_eq.1
  exact ⟨hgroup, Nat.le_refl _, h.balanced Reading.function.grammar_runsPlain, hopen⟩

/-- Where substitutions are read, the match is a function and ends behind them. -/
theorem Source.ReadsSubstitutions.eq_of_best? {g : Extent} (h : src.ReadsSubstitutions g)
    (hm : Match.best? src = some m) : m = ⟨.function, g.stop⟩ := by
  obtain ⟨-, n, hn⟩ := h.parse_eq
  obtain rfl : g.stop = n := h.stop_eq Dialect.lastIn_withGroup hn
  have hg := h.isSubstitutionGroup
  have hlt := hg.groupAt.lt
  have hf : Match.of? .function src = some ⟨.function, g.stop⟩ :=
    Match.of?_eq_some_iff.mpr ⟨rfl, show 0 < g.stop by omega, hn⟩
  rcases Match.best?_of_function hf hm with rfl | ⟨htype, hlonger⟩
  · rfl
  -- a longer type would have to read the square bracket
  have hparse := Match.parse_of_best? hm
  rw [htype] at hparse
  obtain ⟨o, b, ho, hob, hchar⟩ := Source.exists_bracket_of_opening hg.groupAt hg.opening
  have hreads := Grammar.reads_parse src Dialect.type 0
  rw [show Dialect.type.parse src 0 = _ from hparse] at hreads
  obtain ⟨x, q, hx, hopens⟩ := hreads.exists_opens ho hob Reading.type.grammar_runsPlain rfl
    hg.signature (show g.start < m.length by simp only at hlonger; omega)
  rw [hchar, Dialect.opens_eq_false_of_mem_type x hx.mem_parts] at hopens
  cases hopens

/-- **The group of substitutions that is found was read as such.** -/
theorem Source.IsSubstitutionGroup.readsSubstitutions {g : Extent} (hm : Match.best? src = some m)
    (hg : src.IsSubstitutionGroup m.extent g) : src.ReadsSubstitutions g := by
  obtain ⟨o, b, ho, hob, hchar⟩ := Source.exists_bracket_of_opening hg.groupAt hg.opening
  have hlt := hg.groupAt.lt
  have hstop : g.stop ≤ m.length := hg.stop_le
  have hreads := Grammar.reads_parse src m.reading.grammar 0
  rw [Match.parse_of_best? hm] at hreads
  obtain ⟨x, q, hx, hopens⟩ := hreads.exists_opens ho hob m.reading.grammar_runsPlain rfl
    hg.signature (by omega)
  rw [hchar] at hopens
  cases hr : m.reading with
  | type =>
    rw [hr] at hx
    rw [Dialect.opens_eq_false_of_mem_type x hx.mem_parts] at hopens
    cases hopens
  | function =>
    rw [hr] at hx
    obtain rfl := Dialect.eq_withGroup_of_opens x hx.mem_parts hopens
    obtain ⟨hgroup, hpos, -⟩ := Grammar.groupAt_of_parse_withGroup hx.parse_eq.1
    obtain rfl : g.stop = q := by
      have := hgroup.unique hg.groupAt
      omega
    exact hx

/-- Substitutions are read at one place only. -/
theorem Source.ReadsSubstitutions.unique {g g' : Extent} (h : src.ReadsSubstitutions g)
    (h' : src.ReadsSubstitutions g') : g = g' := by
  obtain ⟨-, n, hn⟩ := h.parse_eq
  have hstop : g.stop = n := h.stop_eq Dialect.lastIn_withGroup hn
  have hstop' : g'.stop = n := h'.stop_eq Dialect.lastIn_withGroup hn
  have hg := h.isSubstitutionGroup
  have hg' := h'.isSubstitutionGroup
  have hlt := hg.groupAt.lt
  have hlt' := hg'.groupAt.lt
  have hstart : g.start = g'.start := by
    rcases Nat.le_total g.start g'.start with hle | hle
    · exact (hg.groupAt.eq_of_balanced hg'.signature hg.signature hle (by omega)).symm
    · exact hg'.groupAt.eq_of_balanced hg.signature hg'.signature hle (by omega)
  cases g
  cases g'
  simp_all

/-- A group of substitutions is folded at level one, and only there. -/
theorem Hides.isFolded_iff (hsrc : src.Classed) {e g : Extent} {level : Option Int}
    {atoms : List Atom} (h : Hides src e.start e.stop level atoms)
    (hg : src.IsSubstitutionGroup e g) (hl : ∀ n ∈ level, 1 ≤ n) :
    isFolded g atoms = true ↔ level = some 1 := by
  constructor
  · intro hfolded
    obtain ⟨a, ha, hstart⟩ := List.any_eq_true.mp hfolded
    obtain ⟨p, q, -, -, -, -, hlevel, hspan⟩ := h.sound a ha
    rw [hspan, beq_iff_eq] at hstart
    obtain rfl : p = g.start := by simp only at hstart; omega
    rw [hlevel, hg.depthFrom_succ]
  · rintro rfl
    by_contra hfolded
    have := h.lt_of_not_isFolded hsrc hg hl hfolded 1 rfl
    omega

end Found

/-- **The group of substitutions that is laid out is the one that was read.** In a text that is
recognised the group is found exactly where the grammar of functions reads one, so never in a type;
it lies in square brackets and ends the match. It is folded at level one, and at no other. -/
theorem with_group_is_what_was_read {text : Text} {m : Match}
    (hm : Match.best? (Source.ofText text) = some m) :
    ∃ found, (Source.ofText text).substitutionGroup? m.extent = .ok found ∧
      (∀ g, found = some g ↔ (Source.ofText text).ReadsSubstitutions g) ∧
      (∀ g, found = some g → m = ⟨.function, g.stop⟩ ∧
        (Source.ofText text).GroupAt g.start (g.stop - 1) ∧
        Text.startsWith (text.drop g.start) Dialect.withOpening = true) ∧
      ∀ (level : Option Int) (placeholder : Text), (∀ n ∈ level, 1 ≤ n) →
        ∃ regions folding, (Source.ofText text).regions m.extent = .ok regions ∧
          fold regions level placeholder = .ok folding ∧
          ∀ g, found = some g → (isFolded g folding.atoms = true ↔ level = some 1) := by
  obtain ⟨-, hle, hbal⟩ := Match.balanced_of_best? hm
  obtain ⟨found, hfound, hgroup⟩ := Source.exists_substitutionGroup? (e := m.extent) hbal hle
  have hread : ∀ g, found = some g → (Source.ofText text).ReadsSubstitutions g :=
    fun g hg => (hgroup g hg).readsSubstitutions hm
  refine ⟨found, hfound, fun g => ⟨hread g, fun hreads => ?_⟩, fun g hg => ?_,
    fun level placeholder hl => ?_⟩
  · -- what is read is not overlooked, and there is no other
    have hg := hreads.isSubstitutionGroup
    obtain rfl := hreads.eq_of_best? hm
    have hlt := hg.groupAt.lt
    have hsome := Source.substitutionGroup?_ne_none
      (e := (⟨.function, g.stop⟩ : Match).extent) hbal hle hg.signature
      (show g.stop - 1 < g.stop by omega) hg.groupAt hg.opening
    cases found with
    | none => exact absurd hfound hsome
    | some g' => rw [(hread g' rfl).unique hreads]
  · have hg' := hgroup g hg
    refine ⟨(hread g hg).eq_of_best? hm, hg'.groupAt, ?_⟩
    have hopen := hg'.opening
    rwa [Glyph.text, List.map_drop, ← Glyph.text, ← Source.text, Source.text_ofText] at hopen
  · obtain ⟨regions, folding, hregions, hfold, hhides, -⟩ := Match.exists_fold hm hl placeholder
    exact ⟨regions, folding, hregions, hfold, fun g hg =>
      hhides.isFolded_iff (Source.classed_ofText text) (e := m.extent) (hgroup g hg) hl⟩

/-- A function with a folded group before its substitutions, which are behind its qualifiers. -/
theorem with_group_is_what_was_read_member :
    let text := "f(T<U>) const [with U = int]".toList
    Match.best? (Source.ofText text) = some ⟨.function, 28⟩ ∧
      (Source.ofText text).ReadsSubstitutions ⟨14, 28⟩ ∧
      ∃ regions folding, (Source.ofText text).regions ⟨0, 28⟩ = .ok regions ∧
        fold regions (some 2) "...".toList = .ok folding ∧
        isFolded ⟨14, 28⟩ folding.atoms = false := by
  intro text
  have hbest : Match.best? (Source.ofText text) = some ⟨.function, 28⟩ := by decide +kernel
  obtain ⟨found, hfound, hread, -, hfold⟩ := with_group_is_what_was_read hbest
  have hgroup : (Source.ofText text).substitutionGroup? ⟨0, 28⟩ = .ok (some ⟨14, 28⟩) := by
    decide +kernel
  obtain rfl : some ⟨14, 28⟩ = found := Except.ok.inj (hgroup.symm.trans hfound)
  obtain ⟨regions, folding, hregions, hfolding, hfolded⟩ :=
    hfold (some 2) "...".toList (by simp)
  refine ⟨hbest, (hread _).mp rfl, regions, folding, hregions, hfolding, ?_⟩
  simpa using hfolded _ rfl

end DiagLayout
