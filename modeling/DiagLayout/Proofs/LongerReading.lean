import DiagLayout.Proofs.WithGroups

/-!
# The longer of two readings

Neither of the two readings ever applies without reading anything, because of the way their grammars
are written (`Grammar.advances`). So a match is there as soon as one of the readings applies, and it
is the one that gets further: the function where both get equally far.

* `Grammar.consume_pos`: a grammar that advances reads something wherever it applies;
* `Reading.stop?_eq`: where a reading stops is where its match does;
* `Match.best?_eq_longer`: a complete function needs no second look;
* `best_is_the_longer_reading`: the match by the ends of the two readings.
-/

namespace DiagLayout

/-! ### Grammars that advance -/

namespace Grammar

/-- The grammar reads something wherever it applies, as far as its form shows. -/
def advances : Grammar → Bool
  | empty | opt _ => false
  | fail | run _ | group _ | groupWith _ _ => true
  | seq g h => g.advances || h.advances
  | alt g h => g.advances && h.advances
  | many g => g.advances
  | word t => !t.isEmpty

theorem groupLength?_pos {c : Char} {gs : List Glyph} {n : Nat} (h : groupLength? c gs = some n) :
    0 < n := by
  rcases gs with _ | ⟨g, gs⟩
  · simp [groupLength?] at h
  · rw [groupLength?] at h
    split_ifs at h
    obtain ⟨d, -, rfl⟩ := Option.map_eq_some_iff.mp h
    exact Nat.succ_pos d

/-- **A grammar that advances reads something wherever it applies.** -/
theorem consume_pos {g : Grammar} : g.advances = true → ∀ {gs : List Glyph} {n : Nat},
    g.consume gs = some n → 0 < n := by
  induction g with
  | empty | opt g => rintro ⟨⟩
  | fail =>
    intro _ gs n h
    cases h
  | seq g h ihg ihh =>
    intro hadv gs n hn
    rw [consume] at hn
    obtain ⟨a, ha, hn⟩ := Option.bind_eq_some_iff.mp hn
    obtain ⟨b, hb, hn⟩ := Option.bind_eq_some_iff.mp hn
    obtain rfl : a + b = n := by simpa using hn
    rw [advances, Bool.or_eq_true] at hadv
    rcases hadv with hadv | hadv
    · have := ihg hadv ha
      omega
    · have := ihh hadv hb
      omega
  | alt g h ihg ihh =>
    intro hadv gs n hn
    rw [consume, Option.or_eq_some_iff] at hn
    rw [advances, Bool.and_eq_true] at hadv
    rcases hn with hn | ⟨-, hn⟩
    · exact ihg hadv.1 hn
    · exact ihh hadv.2 hn
  | many g ih =>
    intro hadv gs n hn
    rw [consume] at hn
    obtain ⟨a, ha, hn⟩ := Option.bind_eq_some_iff.mp hn
    obtain rfl : a + repeated g.consume (gs.drop a) = n := by simpa using hn
    have := ih hadv ha
    omega
  | run k =>
    intro _ gs n hn
    rw [consume] at hn
    split_ifs at hn with hzero
    obtain rfl : runLength k gs = n := by simpa using hn
    exact Nat.pos_of_ne_zero hzero
  | word t =>
    intro hadv gs n hn
    rw [consume] at hn
    split_ifs at hn with ht
    obtain rfl : runLength .symbol gs = n := by simpa using hn
    refine Nat.pos_of_ne_zero fun hzero => ?_
    -- an empty run would have to spell the word
    rw [hzero, List.take_zero] at ht
    rw [advances, ← ht] at hadv
    cases hadv
  | group c => exact fun _ gs n hn => groupLength?_pos hn
  | groupWith c more =>
    intro _ gs n hn
    rw [consume] at hn
    split_ifs at hn
    exact groupLength?_pos hn

end Grammar

namespace Reading

theorem grammar_advances (r : Reading) : r.grammar.advances = true := by
  cases r <;> decide

/-- The position where the grammar of the reading stops, read from the start; nothing if it does not
apply there. -/
def stop? (r : Reading) (src : Source) : Option Nat :=
  match r.grammar.parse src 0 with
  | (true, n) => some n
  | (false, _) => none

theorem stop?_eq_some_iff {r : Reading} {src : Source} {n : Nat} :
    r.stop? src = some n ↔ r.grammar.consume src = some n := by
  unfold stop? Grammar.parse
  rw [List.drop_zero]
  cases r.grammar.consume src <;> simp

/-- **A reading stops where its match does.** -/
theorem stop?_eq (r : Reading) (src : Source) :
    r.stop? src = (Match.of? r src).map Match.length := by
  refine Option.ext fun n => ?_
  rw [stop?_eq_some_iff, Option.map_eq_some_iff]
  unfold Match.of?
  constructor
  · intro hn
    obtain ⟨k, rfl⟩ := Nat.exists_eq_succ_of_ne_zero (Grammar.consume_pos r.grammar_advances hn).ne'
    exact ⟨⟨r, k + 1⟩, by rw [hn], rfl⟩
  · rintro ⟨m, hm, rfl⟩
    split at hm
    · next k hk =>
      cases hm
      exact hk
    · cases hm

end Reading

/-! ### The longer match -/

namespace Match

/-- The longer of two matches, the first where they are equally long. -/
def longer : Option Match → Option Match → Option Match
  | none, t => t
  | some f, none => some f
  | some f, some t => if f.length < t.length then some t else some f

theorem longer_eq_none_iff {a b : Option Match} : longer a b = none ↔ a = none ∧ b = none := by
  rcases a with _ | f
  · simp [longer]
  · rcases b with _ | t
    · simp [longer]
    · by_cases hlt : f.length < t.length <;> simp [longer, hlt]

/-- The longer match is the first, and the second is not longer; or it is the second, and the first
is shorter. -/
theorem longer_cases {a b : Option Match} {m : Match} (h : longer a b = some m) :
    (a = some m ∧ ∀ t, b = some t → t.length ≤ m.length) ∨
      (b = some m ∧ ∀ f, a = some f → f.length < m.length) := by
  rcases a with _ | f
  · exact Or.inr ⟨h, by simp⟩
  · rcases b with _ | t
    · exact Or.inl ⟨h, by simp⟩
    · by_cases hlt : f.length < t.length
      · rw [longer, if_pos hlt] at h
        cases h
        exact Or.inr ⟨rfl, by simpa using hlt⟩
      · rw [longer, if_neg hlt] at h
        cases h
        exact Or.inl ⟨rfl, by simpa using hlt⟩

theorem of?_le {r : Reading} {src : Source} {m : Match} (h : Match.of? r src = some m) :
    m.length ≤ src.length :=
  (nested_of_of? h).2.2.1

/-- **A complete function needs no second look**: the type cannot be longer than the source. -/
theorem best?_eq_longer (src : Source) :
    Match.best? src = longer (Match.of? .function src) (Match.of? .type src) := by
  unfold Match.best?
  rcases hf : Match.of? .function src with _ | f
  · rfl
  · rcases ht : Match.of? .type src with _ | t
    · simp [longer]
    · have hle := of?_le ht
      by_cases hall : f.coversAll src = true
      · have hlen : f.length = src.length := by simpa [coversAll] using hall
        simp only [hall, if_true, longer]
        rw [if_neg (by omega)]
      · simp only [hall, longer]
        rfl

end Match

theorem getD_zero_le {o : Option Nat} {n : Nat} (h : ∀ k, o = some k → k ≤ n) : o.getD 0 ≤ n := by
  rcases o with _ | k
  · exact Nat.zero_le n
  · exact h k rfl

/-- **The match is the longer of the two readings.** There is none iff neither reading applies. Else
it goes from the start to where the longer one stops, which is behind the start and not behind the
end; and it is a function iff the function applies and the type does not stop further on. To stop at
a complete function gives the same as to compare the two. -/
theorem best_is_the_longer_reading (src : Source) :
    (Match.best? src = none ↔
      Reading.function.stop? src = none ∧ Reading.type.stop? src = none) ∧
    (∀ m, Match.best? src = some m →
      m.extent = ⟨0, max ((Reading.function.stop? src).getD 0) ((Reading.type.stop? src).getD 0)⟩ ∧
      0 < m.length ∧ m.length ≤ src.length ∧
      (m.reading = .function ↔ ∃ n, Reading.function.stop? src = some n ∧
        ∀ k, Reading.type.stop? src = some k → k ≤ n)) ∧
    Match.best? src = Match.longer (Match.of? .function src) (Match.of? .type src) := by
  refine ⟨?_, fun m hm => ?_, Match.best?_eq_longer src⟩
  · rw [Match.best?_eq_longer, Match.longer_eq_none_iff, Reading.stop?_eq, Reading.stop?_eq,
      Option.map_eq_none_iff, Option.map_eq_none_iff]
  · obtain ⟨hpos, hle, -⟩ := Match.balanced_of_best? hm
    rw [Match.best?_eq_longer] at hm
    rw [Reading.stop?_eq, Reading.stop?_eq]
    rcases Match.longer_cases hm with ⟨hf, ht⟩ | ⟨ht, hf⟩
    · have hreading := (Match.of?_eq_some_iff.mp hf).1
      have hbound : ∀ k, (Match.of? .type src).map Match.length = some k → k ≤ m.length := by
        intro k hk
        obtain ⟨t, hmem, rfl⟩ := Option.map_eq_some_iff.mp hk
        exact ht t hmem
      rw [hf, Option.map_some, Option.getD_some, Nat.max_eq_left (getD_zero_le hbound)]
      exact ⟨rfl, hpos, hle, iff_of_true hreading ⟨m.length, rfl, hbound⟩⟩
    · have hreading := (Match.of?_eq_some_iff.mp ht).1
      have hbound : ∀ n, (Match.of? .function src).map Match.length = some n → n < m.length := by
        intro n hn
        obtain ⟨f, hmem, rfl⟩ := Option.map_eq_some_iff.mp hn
        exact hf f hmem
      have hmax := getD_zero_le fun n hn => Nat.le_of_lt (hbound n hn)
      rw [ht, Option.map_some, Option.getD_some, Nat.max_eq_right hmax]
      refine ⟨rfl, hpos, hle, iff_of_false (by simp [hreading]) ?_⟩
      rintro ⟨n, hn, hk⟩
      exact absurd (hk m.length rfl) (Nat.not_le.mpr (hbound n hn))

/-- Both readings of `A<B>` get to its end, and it is a function; behind `A<B>` the type goes on to
the reference mark of `A<B>&`. -/
theorem best_is_the_longer_reading_reference :
    (∃ m, Match.best? (Source.ofText "A<B>".toList) = some m ∧ m.extent = ⟨0, 4⟩ ∧
      m.reading = .function) ∧
    ∃ m, Match.best? (Source.ofText "A<B>&".toList) = some m ∧ m.extent = ⟨0, 5⟩ ∧
      m.reading ≠ .function := by
  constructor
  · have hf : Reading.function.stop? (Source.ofText "A<B>".toList) = some 4 := by decide +kernel
    have ht : Reading.type.stop? (Source.ofText "A<B>".toList) = some 4 := by decide +kernel
    obtain ⟨hnone, hsome, -⟩ := best_is_the_longer_reading (Source.ofText "A<B>".toList)
    rw [hf, ht] at hnone hsome
    obtain ⟨m, hm⟩ := Option.ne_none_iff_exists'.mp (mt hnone.mp (by simp))
    obtain ⟨hextent, -, -, hreading⟩ := hsome m hm
    exact ⟨m, hm, hextent, hreading.mpr ⟨4, rfl, by simp⟩⟩
  · have hf : Reading.function.stop? (Source.ofText "A<B>&".toList) = some 4 := by decide +kernel
    have ht : Reading.type.stop? (Source.ofText "A<B>&".toList) = some 5 := by decide +kernel
    obtain ⟨hnone, hsome, -⟩ := best_is_the_longer_reading (Source.ofText "A<B>&".toList)
    rw [hf, ht] at hnone hsome
    obtain ⟨m, hm⟩ := Option.ne_none_iff_exists'.mp (mt hnone.mp (by simp))
    obtain ⟨hextent, -, -, hreading⟩ := hsome m hm
    exact ⟨m, hm, hextent, mt hreading.mp (by simp)⟩

end DiagLayout
