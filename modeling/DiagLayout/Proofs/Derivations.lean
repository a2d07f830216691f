import DiagLayout.Proofs.Consumption

/-!
# How a grammar is read

`Grammar.Reads` gives the rules by which a grammar is read at a position of a source, form by form,
with the walks of `Source` for the leaves. A repetition is read again as long as it moves on, and no
rule says that it ever stops: that a derivation exists is what says that reading ends.

* `Grammar.reads_parse`: there is one at every position, with the outcome of `Grammar.parse`. For a
  repetition it is found by what is left of the source, since a round that moves on leaves less.
* `Grammar.Reads.parse_eq`: there is no other.
* `reading_ends_or_rolls_back`: the positions that reading leaves.
-/

namespace DiagLayout

namespace Grammar

/-- **The rules of reading**: `g`, read at `i`, applies or not, and leaves a position. -/
inductive Reads (src : Source) : Grammar → Nat → Bool × Nat → Prop
  | empty {i : Nat} : Reads src .empty i (true, i)
  | fail {i : Nat} : Reads src .fail i (false, i)
  -- one after the other: the second goes on where the first stopped
  | seq {g h : Grammar} {i j k : Nat} (hg : Reads src g i (true, j))
      (hh : Reads src h j (true, k)) : Reads src (.seq g h) i (true, k)
  | seqFirst {g h : Grammar} {i j : Nat} (hg : Reads src g i (false, j)) :
      Reads src (.seq g h) i (false, i)
  | seqSecond {g h : Grammar} {i j k : Nat} (hg : Reads src g i (true, j))
      (hh : Reads src h j (false, k)) : Reads src (.seq g h) i (false, i)
  -- the second is tried only where the first does not apply, and from the same position
  | altFirst {g h : Grammar} {i j : Nat} (hg : Reads src g i (true, j)) :
      Reads src (.alt g h) i (true, j)
  | altSecond {g h : Grammar} {i j k : Nat} (hg : Reads src g i (false, j))
      (hh : Reads src h i (true, k)) : Reads src (.alt g h) i (true, k)
  | altNone {g h : Grammar} {i j k : Nat} (hg : Reads src g i (false, j))
      (hh : Reads src h i (false, k)) : Reads src (.alt g h) i (false, i)
  | opt {g : Grammar} {i j : Nat} (hg : Reads src g i (true, j)) : Reads src (.opt g) i (true, j)
  | optNone {g : Grammar} {i j : Nat} (hg : Reads src g i (false, j)) :
      Reads src (.opt g) i (true, i)
  -- a repetition ends where it does not apply again, or applies and stays
  | manyNone {g : Grammar} {i j : Nat} (hg : Reads src g i (false, j)) :
      Reads src (.many g) i (false, i)
  | manyLast {g : Grammar} {i j k : Nat} (hg : Reads src g i (true, j))
      (hs : Reads src g j (false, k)) : Reads src (.many g) i (true, j)
  | manyStill {g : Grammar} {i j : Nat} (hg : Reads src g i (true, j))
      (hs : Reads src g j (true, j)) : Reads src (.many g) i (true, j)
  | manyMore {g : Grammar} {i j k l : Nat} (hg : Reads src g i (true, j))
      (hs : Reads src g j (true, k)) (hne : k ≠ j) (hm : Reads src (.many g) j (true, l)) :
      Reads src (.many g) i (true, l)
  -- the leaves
  | run {k : Kind} {i j : Nat} (h : src.pastRun k ⟨i, src.length⟩ = .ok j) (hne : j ≠ i) :
      Reads src (.run k) i (true, j)
  | runNone {k : Kind} {i : Nat} (h : src.pastRun k ⟨i, src.length⟩ = .ok i) :
      Reads src (.run k) i (false, i)
  | word {t : Text} {i j : Nat} (h : src.pastRun .symbol ⟨i, src.length⟩ = .ok j)
      (ht : Glyph.text (src.window ⟨i, j⟩) = t) : Reads src (.word t) i (true, j)
  | wordNone {t : Text} {i j : Nat} (h : src.pastRun .symbol ⟨i, src.length⟩ = .ok j)
      (ht : Glyph.text (src.window ⟨i, j⟩) ≠ t) : Reads src (.word t) i (false, i)
  | group {c : Char} {i k : Nat} (hc : src.text[i]? = some c)
      (h : src.findCloser i src.length = .ok (some k)) : Reads src (.group c) i (true, k + 1)
  | groupOther {c : Char} {i : Nat} (hc : src.text[i]? ≠ some c) : Reads src (.group c) i (false, i)
  | groupNone {c : Char} {i : Nat} (h : src.findCloser i src.length = .ok none) :
      Reads src (.group c) i (false, i)
  | groupWith {c : Char} {more : Text} {i : Nat} {r : Bool × Nat}
      (hs : Text.startsWith (src.text.drop i) (c :: more) = true) (hg : Reads src (.group c) i r) :
      Reads src (.groupWith c more) i r
  | groupWithNone {c : Char} {more : Text} {i : Nat}
      (hs : Text.startsWith (src.text.drop i) (c :: more) = false) :
      Reads src (.groupWith c more) i (false, i)

/-! ### Repetitions -/

theorem repeated_stop {step : List Glyph → Option Nat} {gs : List Glyph}
    (h : ∀ n, step gs ≠ some (n + 1)) : repeated step gs = 0 := by
  rcases gs with _ | ⟨g, gs⟩
  · simp [repeated]
  rw [repeated]
  split
  · next n hn => exact absurd hn (h n)
  · rfl

theorem repeated_more {step : List Glyph → Option Nat} {gs : List Glyph} {n : Nat}
    (h : step gs = some (n + 1)) (hle : n + 1 ≤ gs.length) :
    repeated step gs = (n + 1) + repeated step (gs.drop (n + 1)) := by
  rcases gs with _ | ⟨g, gs⟩
  · simp at hle
  rw [repeated, h]
  rfl

/-- Where a repetition ends, the step reads nothing more. -/
theorem repeated_stops {step : List Glyph → Option Nat}
    (hstep : ∀ gs n, step gs = some n → n ≤ gs.length) (gs : List Glyph) (n : Nat) :
    step (gs.drop (repeated step gs)) ≠ some (n + 1) := by
  fun_induction repeated step gs with
  | case1 =>
    intro h
    have hle := hstep _ _ h
    simp at hle
  | case2 g gs m hm ih =>
    rw [← List.drop_drop, List.drop_succ_cons]
    exact ih
  | case3 g gs hno => exact hno n

/-! ### Reading by position -/

section Parse

variable {src : Source} {g h : Grammar} {i j k : Nat}

theorem parse_eq_true : g.parse src i = (true, j) ↔
    ∃ n, g.consume (src.drop i) = some n ∧ j = i + n := by
  unfold parse
  cases g.consume (src.drop i) <;> simp [eq_comm]

theorem parse_eq_false : g.parse src i = (false, j) ↔
    g.consume (src.drop i) = none ∧ j = i := by
  unfold parse
  cases g.consume (src.drop i) <;> simp [eq_comm]

theorem parse_bounds (hg : g.parse src i = (true, j)) : i ≤ j ∧ j ≤ max i src.length := by
  obtain ⟨n, hn, rfl⟩ := parse_eq_true.mp hg
  have hle := consume_le hn
  rw [List.length_drop] at hle
  omega

theorem parse_seq (g h : Grammar) (src : Source) (i : Nat) : (seq g h).parse src i =
    match g.parse src i with
    | (true, j) =>
      match h.parse src j with
      | (true, k) => (true, k)
      | (false, _) => (false, i)
    | (false, _) => (false, i) := by
  unfold parse
  rw [consume]
  cases g.consume (src.drop i) with
  | none => rfl
  | some n =>
    simp only [Option.bind_eq_bind, Option.bind_some, List.drop_drop]
    cases h.consume (src.drop (i + n)) with
    | none => rfl
    | some m => simp [Nat.add_assoc]

theorem parse_alt (g h : Grammar) (src : Source) (i : Nat) : (alt g h).parse src i =
    match g.parse src i with
    | (true, j) => (true, j)
    | (false, _) => h.parse src i := by
  unfold parse
  rw [consume]
  cases g.consume (src.drop i) <;> rfl

theorem parse_opt (g : Grammar) (src : Source) (i : Nat) : (opt g).parse src i =
    match g.parse src i with
    | (true, j) => (true, j)
    | (false, _) => (true, i) := by
  unfold parse
  rw [consume]
  cases g.consume (src.drop i) <;> rfl

theorem parse_many (hg : g.parse src i = (true, j)) :
    (many g).parse src i = (true, j + repeated g.consume (src.drop j)) := by
  obtain ⟨n, hn, rfl⟩ := parse_eq_true.mp hg
  refine parse_eq_true.mpr ⟨n + repeated g.consume (src.drop (i + n)), ?_, by omega⟩
  rw [consume, hn, ← List.drop_drop]
  rfl

theorem parse_many_none (hg : g.parse src i = (false, j)) :
    (many g).parse src i = (false, i) := by
  refine parse_eq_false.mpr ⟨?_, rfl⟩
  rw [consume, (parse_eq_false.mp hg).1]
  rfl

/-- Where the grammar does not apply again, or stays, the repetition ends. -/
theorem parse_many_stop (hg : g.parse src i = (true, j))
    (hs : ∀ k, g.parse src j = (true, k) → k = j) : (many g).parse src i = (true, j) := by
  have hstop : ∀ n, g.consume (src.drop j) ≠ some (n + 1) := by
    intro n hn
    have := hs _ (parse_eq_true.mpr ⟨n + 1, hn, rfl⟩)
    omega
  rw [parse_many hg, repeated_stop hstop, Nat.add_zero]

/-- Where the grammar moves on, the repetition goes on from there. -/
theorem parse_many_more (hg : g.parse src i = (true, j)) (hs : g.parse src j = (true, k))
    (hne : k ≠ j) : (many g).parse src i = (many g).parse src j := by
  obtain ⟨n, hn, hk⟩ := parse_eq_true.mp hs
  obtain ⟨m, rfl⟩ : ∃ m, n = m + 1 := ⟨n - 1, by omega⟩
  rw [parse_many hg, parse_many hs, repeated_more hn (consume_le hn), List.drop_drop, ← hk]
  congr 1
  omega

/-! ### The leaves -/

theorem window_length (src : Source) (i : Nat) : src.window ⟨i, src.length⟩ = src.drop i := by
  rw [Source.window]
  exact List.take_of_length_le (by simp)

theorem pastRun_length (src : Source) (i : Nat) (k : Kind) :
    src.pastRun k ⟨i, src.length⟩ = .ok (i + runLength k (src.drop i)) := by
  have hover : src.overruns ⟨i, src.length⟩ = false := Source.overruns_eq_false (Nat.le_refl _)
  unfold Source.pastRun
  simp [window_length, hover, runLength]

theorem findCloser_length (src : Source) (i : Nat) : src.findCloser i src.length =
    .ok ((groupEnd? (src.drop i)).map (i + ·)) := by
  have hover : src.overruns ⟨i, src.length⟩ = false := Source.overruns_eq_false (Nat.le_refl _)
  have hkind : src.kind? i = (src.drop i).head?.map Glyph.kind := by
    rw [Source.kind?, if_neg (by omega), Int.toNat_natCast, List.head?_drop]
  unfold Source.findCloser
  rw [hkind]
  simp only [Int.toNat_natCast, window_length, hover]
  rcases src.drop i with _ | ⟨g, gs⟩
  · simp [groupEnd?]
  · by_cases hk : g.kind = .opener
    · simp only [List.head?_cons, Option.map_some, hk, if_true, groupEnd?]
      cases closing [] (g :: gs) <;> rfl
    · simp [groupEnd?, hk]

theorem parse_run {kind : Kind} (hr : src.pastRun kind ⟨i, src.length⟩ = .ok j) :
    (run kind).parse src i = if j = i then (false, i) else (true, j) := by
  rw [pastRun_length] at hr
  cases hr
  unfold parse
  rw [consume]
  by_cases hz : runLength kind (src.drop i) = 0
  · simp [hz]
  · simp [hz]

theorem parse_word {t : Text} (hr : src.pastRun .symbol ⟨i, src.length⟩ = .ok j) :
    (word t).parse src i =
      if Glyph.text (src.window ⟨i, j⟩) = t then (true, j) else (false, i) := by
  rw [pastRun_length] at hr
  cases hr
  unfold parse
  simp only [consume, Source.window, Nat.add_sub_cancel_left]
  split_ifs <;> rfl

theorem parse_group {c : Char} {close : Option Nat}
    (hc : src.findCloser i src.length = .ok close) : (group c).parse src i =
      if src.text[i]? = some c then (close.elim (false, i) fun k => (true, k + 1))
      else (false, i) := by
  have hchar : src.text[i]? = (src.drop i).head?.map Glyph.char := by
    simp [Source.text, Glyph.text, List.head?_drop]
  rw [findCloser_length] at hc
  cases hc
  unfold parse
  rw [consume, hchar]
  rcases src.drop i with _ | ⟨g, gs⟩
  · simp [groupLength?]
  · by_cases hg : g.char = c
    · simp only [groupLength?, hg, List.head?_cons, Option.map_some, if_true]
      cases groupEnd? (g :: gs) <;> rfl
    · simp [groupLength?, hg]

theorem parse_groupWith (c : Char) (more : Text) (src : Source) (i : Nat) :
    (groupWith c more).parse src i =
      if Text.startsWith (src.text.drop i) (c :: more) then (group c).parse src i
      else (false, i) := by
  have htext : Glyph.text (src.drop i) = src.text.drop i := by simp [Source.text, Glyph.text]
  unfold parse
  rw [consume, consume, htext]
  split_ifs <;> rfl

end Parse

/-! ### One derivation at each position -/

section Derivations

variable {src : Source}

/-- **A repetition has its derivation**, by what is left of the source behind the first round. -/
theorem reads_many {g : Grammar} (ih : ∀ i, Reads src g i (g.parse src i)) (n : Nat) :
    ∀ {i j : Nat}, g.parse src i = (true, j) → src.length - j = n →
      Reads src (many g) i ((many g).parse src i) := by
  induction n using Nat.strongRecOn with
  | ind n rec =>
    intro i j hg hn
    have hfirst : Reads src g i (true, j) := hg ▸ ih i
    rcases hs : g.parse src j with ⟨_ | _, k⟩
    · rw [parse_many_stop hg (by simp [hs])]
      exact .manyLast hfirst (hs ▸ ih j)
    · by_cases hk : k = j
      · subst hk
        rw [parse_many_stop hg (by simp [hs])]
        exact .manyStill hfirst (hs ▸ ih k)
      · -- a round that moves on leaves less of the source
        have hbounds := parse_bounds hs
        have hrest := rec (src.length - k) (by omega) hs rfl
        rw [parse_many_more hg hs hk]
        rw [parse_many hs] at hrest ⊢
        exact .manyMore hfirst (hs ▸ ih j) hk hrest

theorem reads_group (c : Char) (i : Nat) : Reads src (group c) i ((group c).parse src i) := by
  have hclose := findCloser_length src i
  rw [parse_group hclose]
  split_ifs with hc
  · cases hd : groupEnd? (src.drop i) with
    | none => exact .groupNone (by rw [hclose, hd]; rfl)
    | some d => exact .group hc (by rw [hclose, hd]; rfl)
  · exact .groupOther hc

/-- **Every grammar has a derivation at every position**: reading ends, with the outcome of
`Grammar.parse`. -/
theorem reads_parse (src : Source) (g : Grammar) : ∀ i : Nat, Reads src g i (g.parse src i) := by
  induction g with
  | empty => intro i; exact .empty
  | fail => intro i; exact .fail
  | seq g h ihg ihh =>
    intro i
    rw [parse_seq]
    rcases hg : g.parse src i with ⟨_ | _, j⟩
    · exact .seqFirst (hg ▸ ihg i)
    · simp only
      rcases hh : h.parse src j with ⟨_ | _, k⟩
      · exact .seqSecond (hg ▸ ihg i) (hh ▸ ihh j)
      · exact .seq (hg ▸ ihg i) (hh ▸ ihh j)
  | alt g h ihg ihh =>
    intro i
    rw [parse_alt]
    rcases hg : g.parse src i with ⟨_ | _, j⟩
    · rcases hh : h.parse src i with ⟨_ | _, k⟩
      · obtain rfl : k = i := (parse_eq_false.mp hh).2
        exact .altNone (hg ▸ ihg k) (hh ▸ ihh k)
      · exact .altSecond (hg ▸ ihg i) (hh ▸ ihh i)
    · exact .altFirst (hg ▸ ihg i)
  | opt g ih =>
    intro i
    rw [parse_opt]
    rcases hg : g.parse src i with ⟨_ | _, j⟩
    · exact .optNone (hg ▸ ih i)
    · exact .opt (hg ▸ ih i)
  | many g ih =>
    intro i
    rcases hp : g.parse src i with ⟨_ | _, j⟩
    · rw [parse_many_none hp]
      exact .manyNone (hp ▸ ih i)
    · exact reads_many ih _ hp rfl
  | run k =>
    intro i
    have hrun := pastRun_length src i k
    rw [parse_run hrun]
    split_ifs with hz
    · exact .runNone (by rw [hrun, hz])
    · exact .run hrun hz
  | word t =>
    intro i
    have hrun := pastRun_length src i .symbol
    rw [parse_word hrun]
    split_ifs with ht
    · exact .word hrun ht
    · exact .wordNone hrun ht
  | group c => exact reads_group c
  | groupWith c more =>
    intro i
    rw [parse_groupWith]
    split_ifs with hs
    · exact .groupWith hs (reads_group c i)
    · exact .groupWithNone (Bool.eq_false_iff.mpr hs)

/-- **A derivation has the outcome of `Grammar.parse`**, so there is only one. -/
theorem Reads.parse_eq {g : Grammar} {i : Nat} {r : Bool × Nat} (h : Reads src g i r) :
    g.parse src i = r := by
  induction h with
  | empty => rfl
  | fail => rfl
  | seq _ _ ihg ihh => rw [parse_seq, ihg]; simp only [ihh]
  | seqFirst _ ihg => rw [parse_seq, ihg]
  | seqSecond _ _ ihg ihh => rw [parse_seq, ihg]; simp only [ihh]
  | altFirst _ ihg => rw [parse_alt, ihg]
  | altSecond _ _ ihg ihh => rw [parse_alt, ihg]; exact ihh
  | altNone _ _ ihg ihh =>
    rw [parse_alt, ihg]
    exact parse_eq_false.mpr ⟨(parse_eq_false.mp ihh).1, rfl⟩
  | opt _ ihg => rw [parse_opt, ihg]
  | optNone _ ihg => rw [parse_opt, ihg]
  | manyNone _ ihg => exact parse_many_none ihg
  | manyLast _ _ ihg ihs => exact parse_many_stop ihg (by simp [ihs])
  | manyStill _ _ ihg ihs => exact parse_many_stop ihg (by simp [ihs])
  | manyMore _ _ hne _ ihg ihs ihm => rw [parse_many_more ihg ihs hne, ihm]
  | run h hne => rw [parse_run h, if_neg hne]
  | runNone h => rw [parse_run h, if_pos rfl]
  | word h ht => rw [parse_word h, if_pos ht]
  | wordNone h ht => rw [parse_word h, if_neg ht]
  | group hc h => rw [parse_group h, if_pos hc]; rfl
  | groupOther hc => rw [parse_group (findCloser_length _ _), if_neg hc]
  | groupNone h => rw [parse_group h]; split_ifs <;> rfl
  | groupWith hs _ ihg => rw [parse_groupWith, if_pos hs, ihg]
  | groupWithNone hs => rw [parse_groupWith, hs, if_neg Bool.false_ne_true]

end Derivations

end Grammar

/-- **Reading ends, and rolls back where it fails.** At every position of every source, past the end
too, each grammar has exactly one derivation, and `Grammar.parse` gives its outcome. A grammar that
does not apply leaves the position as it was; one that applies leaves one that is not before it and
not past the end of the source. Where a repetition ends, its grammar does not apply or reads
nothing. -/
theorem reading_ends_or_rolls_back (g : Grammar) (src : Source) (pos : Nat) :
    (∃! r, Grammar.Reads src g pos r) ∧
    Grammar.Reads src g pos (g.parse src pos) ∧
    (∀ p, g.parse src pos = (false, p) → p = pos) ∧
    (∀ p, g.parse src pos = (true, p) → pos ≤ p ∧ p ≤ max pos src.length) ∧
    ∀ p, (Grammar.many g).parse src pos = (true, p) →
      g.parse src p = (false, p) ∨ g.parse src p = (true, p) := by
  have hreads := Grammar.reads_parse src g pos
  refine ⟨⟨_, hreads, fun r hr => hr.parse_eq.symm⟩, hreads,
    fun p hp => (Grammar.parse_eq_false.mp hp).2, fun p hp => Grammar.parse_bounds hp,
    fun p hp => ?_⟩
  rcases hg : g.parse src pos with ⟨_ | _, j⟩
  · rw [Grammar.parse_many_none hg] at hp
    cases hp
  · rw [Grammar.parse_many hg] at hp
    cases hp
    have hstop := Grammar.repeated_stops (fun _ _ => Grammar.consume_le (g := g)) (src.drop j)
    simp only [List.drop_drop] at hstop
    rcases hn : g.consume (src.drop (j + Grammar.repeated g.consume (src.drop j))) with _ | _ | n
    · exact Or.inl (Grammar.parse_eq_false.mpr ⟨hn, rfl⟩)
    · exact Or.inr (Grammar.parse_eq_true.mpr ⟨0, hn, rfl⟩)
    · exact absurd hn (hstop n)

/-- Template arguments are read one group after the other, up to the blank; a blank that has to
follow the first group is missed, and the position is that before the group. -/
theorem reading_ends_or_rolls_back_arguments :
    let src := Source.ofText "v<a>w<b> x".toList
    let arguments := Grammar.seqs [.group '<', .opt Grammar.symbol]
    (Grammar.many arguments).parse src 1 = (true, 8) ∧
      (arguments.parse src 8 = (false, 8) ∨ arguments.parse src 8 = (true, 8)) ∧
      (1 ≤ 8 ∧ 8 ≤ max 1 src.length) ∧
      (Grammar.seqs [.group '<', Grammar.spaces]).parse src 1 = (false, 1) := by
  intro src arguments
  have hmany : (Grammar.many arguments).parse src 1 = (true, 8) := by decide +kernel
  have hseq : ((Grammar.seqs [.group '<', Grammar.spaces]).parse src 1).1 = false := by
    decide +kernel
  refine ⟨hmany, (reading_ends_or_rolls_back arguments src 1).2.2.2.2 8 hmany,
    (reading_ends_or_rolls_back (Grammar.many arguments) src 1).2.2.2.1 8 hmany, ?_⟩
  have hback := (reading_ends_or_rolls_back (Grammar.seqs [.group '<', Grammar.spaces]) src 1).2.2.1
  rw [Prod.ext_iff]
  exact ⟨hseq, hback _ (Prod.ext hseq rfl)⟩

end DiagLayout
