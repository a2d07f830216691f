import DiagLayout.Recognition
import DiagLayout.Proofs.Tokens

/-!
# What a grammar reads

What a grammar reads is put together from what its leaves read (`Grammar.consume_of_leaves`). So a
grammar reads no more than there is (`Grammar.consume_le`), and what it reads is nested: runs of one
kind hold no bracket, and groups are taken whole (`Grammar.consume_nested`). Every stretch that is
recognised is therefore balanced (`Match.balanced_of_best?`).
-/

namespace DiagLayout

/-- The first `n` glyphs are there, and they are nested. -/
def ReadsNested (gs : List Glyph) (n : Nat) : Prop := n ≤ gs.length ∧ Nested Glyph.cls (gs.take n)

namespace ReadsNested

theorem zero (gs : List Glyph) : ReadsNested gs 0 := ⟨Nat.zero_le _, by simpa using Nested.nil⟩

theorem add {gs : List Glyph} {n m : Nat} (hn : ReadsNested gs n)
    (hm : ReadsNested (gs.drop n) m) : ReadsNested gs (n + m) := by
  obtain ⟨hn1, hn2⟩ := hn
  obtain ⟨hm1, hm2⟩ := hm
  rw [List.length_drop] at hm1
  refine ⟨by omega, ?_⟩
  rw [List.take_add]
  exact hn2.append hm2

theorem run {k : Kind} (ho : k ≠ .opener) (hc : k ≠ .closer) (gs : List Glyph) :
    ReadsNested gs (runLength k gs) :=
  ⟨runLength_le k gs, Nested.of_items fun _ hx => not_isBracket_of_mem_run ho hc hx⟩

theorem groupLength? {c : Char} {gs : List Glyph} {n : Nat}
    (h : Grammar.groupLength? c gs = some n) : ReadsNested gs n := by
  rcases gs with _ | ⟨g, gs⟩
  · simp [Grammar.groupLength?] at h
  simp only [Grammar.groupLength?] at h
  split_ifs at h
  obtain ⟨d, hd, rfl⟩ := Option.map_eq_some_iff.mp h
  obtain ⟨hlt, hn⟩ := nested_of_groupEnd? hd
  exact ⟨hlt, hn⟩

end ReadsNested

namespace Grammar

/-- The leaves of the grammar read stretches with the property `P`. -/
def LeavesRead (P : List Glyph → Nat → Prop) : Grammar → Prop
  | run k => ∀ gs, P gs (runLength k gs)
  | word _ => ∀ gs, P gs (runLength .symbol gs)
  | group c | groupWith c _ => ∀ gs n, groupLength? c gs = some n → P gs n
  | seq g h | alt g h => g.LeavesRead P ∧ h.LeavesRead P
  | opt g | many g => g.LeavesRead P
  | _ => True

section Leaves

variable {P : List Glyph → Nat → Prop} (zero : ∀ gs, P gs 0)
  (add : ∀ {gs : List Glyph} {n m : Nat}, P gs n → P (gs.drop n) m → P gs (n + m))
include zero add

theorem repeated_of_step {step : List Glyph → Option Nat}
    (hstep : ∀ gs n, step gs = some n → P gs n) (gs : List Glyph) : P gs (repeated step gs) := by
  fun_induction repeated step gs with
  | case1 => exact zero _
  | case2 g gs n hn ih => exact add (hstep _ _ hn) ih
  | case3 g gs _ => exact zero _

/-- **What a grammar reads is put together from what its leaves read.** -/
theorem consume_of_leaves {g : Grammar} (hg : g.LeavesRead P) : ∀ {gs : List Glyph} {n : Nat},
    g.consume gs = some n → P gs n := by
  induction g with
  | empty =>
    intro gs n h
    obtain rfl : 0 = n := by simpa [consume] using h
    exact zero gs
  | fail => intro gs n h; simp [consume] at h
  | seq g h ihg ihh =>
    intro gs n hn
    rw [consume] at hn
    obtain ⟨a, ha, hn⟩ := Option.bind_eq_some_iff.mp hn
    obtain ⟨b, hb, hn⟩ := Option.bind_eq_some_iff.mp hn
    obtain rfl : a + b = n := by simpa using hn
    exact add (ihg hg.1 ha) (ihh hg.2 hb)
  | alt g h ihg ihh =>
    intro gs n hn
    rw [consume, Option.or_eq_some_iff] at hn
    rcases hn with hn | ⟨-, hn⟩
    · exact ihg hg.1 hn
    · exact ihh hg.2 hn
  | opt g ih =>
    intro gs n hn
    rw [consume] at hn
    cases hc : g.consume gs with
    | none =>
      obtain rfl : 0 = n := by simpa [hc] using hn
      exact zero gs
    | some m =>
      obtain rfl : m = n := by simpa [hc] using hn
      exact ih hg hc
  | many g ih =>
    intro gs n hn
    rw [consume] at hn
    obtain ⟨a, ha, hn⟩ := Option.bind_eq_some_iff.mp hn
    obtain rfl : a + repeated g.consume (gs.drop a) = n := by simpa using hn
    exact add (ih hg ha) (repeated_of_step zero add (fun _ _ => ih hg) _)
  | run k =>
    intro gs n hn
    rw [consume] at hn
    split_ifs at hn
    obtain rfl : runLength k gs = n := by simpa using hn
    exact hg gs
  | word t =>
    intro gs n hn
    rw [consume] at hn
    split_ifs at hn
    obtain rfl : runLength .symbol gs = n := by simpa using hn
    exact hg gs
  | group c => intro gs n hn; exact hg gs n hn
  | groupWith c more =>
    intro gs n hn
    rw [consume] at hn
    split_ifs at hn
    exact hg gs n hn

end Leaves

/-- **A grammar reads no more than there is.** -/
theorem consume_le {g : Grammar} {gs : List Glyph} {n : Nat} (h : g.consume gs = some n) :
    n ≤ gs.length := by
  have hleaves : g.LeavesRead fun gs n => n ≤ gs.length := by
    clear h
    induction g with
    | empty | fail => trivial
    | seq g h ihg ihh | alt g h ihg ihh => exact ⟨ihg, ihh⟩
    | opt g ih | many g ih => exact ih
    | run k => exact runLength_le k
    | word t => exact runLength_le .symbol
    | group c | groupWith c more => exact fun gs n hn => (ReadsNested.groupLength? hn).1
  refine consume_of_leaves (P := fun gs n => n ≤ gs.length) (fun _ => Nat.zero_le _) ?_ hleaves h
  intro gs n m hn hm
  rw [List.length_drop] at hm
  omega

/-- The runs that a grammar asks for are of kinds that are no brackets. -/
def RunsPlain : Grammar → Prop
  | run k => k ≠ .opener ∧ k ≠ .closer
  | seq g h | alt g h => g.RunsPlain ∧ h.RunsPlain
  | opt g | many g => g.RunsPlain
  | _ => True

/-- **What a grammar reads is there, and nested.** -/
theorem consume_nested {g : Grammar} (hg : g.RunsPlain) {gs : List Glyph} {n : Nat}
    (h : g.consume gs = some n) : ReadsNested gs n := by
  have hleaves : g.LeavesRead ReadsNested := by
    clear h
    induction g with
    | empty | fail => trivial
    | seq g h ihg ihh | alt g h ihg ihh => exact ⟨ihg hg.1, ihh hg.2⟩
    | opt g ih | many g ih => exact ih hg
    | run k => exact ReadsNested.run hg.1 hg.2
    | word t => exact ReadsNested.run (by simp) (by simp)
    | group c | groupWith c more => exact fun gs n => ReadsNested.groupLength?
  exact consume_of_leaves ReadsNested.zero ReadsNested.add hleaves h

end Grammar

theorem Reading.grammar_runsPlain (r : Reading) : r.grammar.RunsPlain := by
  cases r <;> simp [Reading.grammar, Dialect.function, Dialect.type, Grammar.RunsPlain,
    Grammar.seqs, Grammar.alts, Grammar.symbol, Grammar.spaces, Grammar.anyWord,
    Grammar.spacedWord, Dialect.templateHeader, Dialect.specifiers, Dialect.parameters,
    Dialect.arrowReturn, Dialect.withGroup, Dialect.memberQualifier, Dialect.memberQualifiers,
    Dialect.decltypeOf, Dialect.templateArguments, Dialect.qualifier, Dialect.qualifiers,
    Dialect.referenceMarks]

namespace Match

theorem nested_of_of? {r : Reading} {src : Source} {m : Match} (h : Match.of? r src = some m) :
    m.reading = r ∧ 0 < m.length ∧ ReadsNested src m.length := by
  unfold Match.of? at h
  split at h
  · next n hn =>
    obtain rfl : ⟨r, n + 1⟩ = m := by simpa using h
    exact ⟨rfl, Nat.succ_pos n, Grammar.consume_nested r.grammar_runsPlain hn⟩
  · simp at h

/-- The best match is a match of one of the readings. -/
theorem exists_of?_of_best? {src : Source} {m : Match} (h : Match.best? src = some m) :
    ∃ r, Match.of? r src = some m := by
  unfold Match.best? at h
  split at h
  · exact ⟨_, h⟩
  · next f hf =>
    split_ifs at h
    · exact ⟨.function, by rw [hf]; exact h⟩
    · split at h
      · exact ⟨.function, by rw [hf]; exact h⟩
      · next t ht =>
        split_ifs at h
        · exact ⟨.type, by rw [ht]; exact h⟩
        · exact ⟨.function, by rw [hf]; exact h⟩

/-- **A stretch that is recognised is balanced.** -/
theorem balanced_of_best? {src : Source} {m : Match} (h : Match.best? src = some m) :
    0 < m.length ∧ m.length ≤ src.length ∧ src.Balanced 0 m.length := by
  obtain ⟨r, hr⟩ := exists_of?_of_best? h
  obtain ⟨-, hpos, hle, hn⟩ := nested_of_of? hr
  exact ⟨hpos, hle, Nat.zero_le _, by simpa [Source.window] using hn⟩

end Match

end DiagLayout
