import DiagLayout.Proofs.BreakSites
import DiagLayout.Proofs.WithGroups

/-!
# The bracket language

The brackets of a stretch, read off character by character, spell a word over the four pairs of
delimiters. `WellNested` is the language of the words that nest well. It knows nothing of stacks,
of positions or of the glyphs between the brackets.

* `nested_iff_wellNested`: glyphs are nested iff their brackets spell a word of the language;
* `Source.Encloses`: the brackets from a position through another spell a word of the language in
  which the first bracket is closed by the last;
* `findCloser_decides_brackets`: the walk from an opener to its closer decides this.
-/

namespace DiagLayout

/-- The character that opens a group. -/
def Bracket.opening : Bracket → Char
  | paren => '('
  | angle => '<'
  | square => '['
  | curly => '\x7b'

/-- The character that closes a group. -/
def Bracket.closing : Bracket → Char
  | paren => ')'
  | angle => '>'
  | square => ']'
  | curly => '\x7d'

/-- **The bracket language**: no bracket at all, or a word of the language between the two brackets
of a pair, with another one after it. -/
inductive WellNested : Text → Prop
  | nil : WellNested []
  | pair (b : Bracket) {u v : Text} (hu : WellNested u) (hv : WellNested v) :
    WellNested (b.opening :: (u ++ b.closing :: v))

theorem baseClass_opening (b : Bracket) : baseClass b.opening = .opener b := by
  cases b <;> rfl

theorem baseClass_closing (b : Bracket) : baseClass b.closing = .closer b := by
  cases b <;> rfl

theorem opening_of_baseClass {c : Char} {b : Bracket} (h : baseClass c = .opener b) :
    c = b.opening := by
  unfold baseClass at h
  split at h <;> cases h <;> rfl

theorem closing_of_baseClass {c : Char} {b : Bracket} (h : baseClass c = .closer b) :
    c = b.closing := by
  unfold baseClass at h
  split at h <;> cases h <;> rfl

/-- A word of the language leaves every stack of open brackets as it was. -/
theorem WellNested.openAfter_eq {u : Text} (h : WellNested u) :
    ∀ stack, openAfter baseClass stack u = some stack := by
  induction h with
  | nil => exact fun stack => rfl
  | pair b _ _ ihu ihv =>
    intro stack
    rw [openAfter_opener (baseClass_opening b), openAfter_append, ihu, Option.bind_some,
      openAfter_closer (baseClass_closing b), ihv]

/-! ### The brackets of glyphs -/

theorem Glyph.kind_eq_opener {g : Glyph} : g.kind = .opener ↔ ∃ b, g.cls = .opener b := by
  cases hc : g.cls <;> simp [Glyph.kind, CharClass.kind, hc]

theorem Glyph.kind_eq_closer {g : Glyph} : g.kind = .closer ↔ ∃ b, g.cls = .closer b := by
  cases hc : g.cls <;> simp [Glyph.kind, CharClass.kind, hc]

/-- The characters of the brackets among the glyphs. -/
def bracketText (gs : List Glyph) : Text := Glyph.text (gs.filter fun g => g.cls.isBracket)

/-- Every bracket stands on its own character. -/
def Delimited (gs : List Glyph) : Prop :=
  ∀ g ∈ gs, g.cls.isBracket = true → g.cls = baseClass g.char

theorem bracketText_append (gs gs' : List Glyph) :
    bracketText (gs ++ gs') = bracketText gs ++ bracketText gs' := by
  simp [bracketText, Glyph.text]

theorem bracketText_item {g : Glyph} (h : g.cls.isBracket = false) (gs : List Glyph) :
    bracketText (g :: gs) = bracketText gs := by
  simp [bracketText, h]

theorem bracketText_bracket {g : Glyph} (h : g.cls.isBracket = true) (gs : List Glyph) :
    bracketText (g :: gs) = g.char :: bracketText gs := by
  simp [bracketText, Glyph.text, h]

namespace Delimited

variable {gs : List Glyph} {g : Glyph} {b : Bracket}

theorem char_opener (h : Delimited gs) (hg : g ∈ gs) (hb : g.cls = .opener b) :
    g.char = b.opening :=
  opening_of_baseClass (by rw [← h g hg (by rw [hb]; rfl), hb])

theorem char_closer (h : Delimited gs) (hg : g ∈ gs) (hb : g.cls = .closer b) :
    g.char = b.closing :=
  closing_of_baseClass (by rw [← h g hg (by rw [hb]; rfl), hb])

theorem bracketText_opener (h : Delimited gs) (hg : g ∈ gs) (hb : g.cls = .opener b)
    (rest : List Glyph) : bracketText (g :: rest) = b.opening :: bracketText rest := by
  rw [bracketText_bracket (by rw [hb]; rfl), h.char_opener hg hb]

theorem bracketText_closer (h : Delimited gs) (hg : g ∈ gs) (hb : g.cls = .closer b)
    (rest : List Glyph) : bracketText (g :: rest) = b.closing :: bracketText rest := by
  rw [bracketText_bracket (by rw [hb]; rfl), h.char_closer hg hb]

/-- Of the glyphs, the stack of open brackets sees the brackets only. -/
theorem openAfter_bracketText (h : Delimited gs) :
    ∀ stack, openAfter Glyph.cls stack gs = openAfter baseClass stack (bracketText gs) := by
  induction gs with
  | nil => exact fun stack => rfl
  | cons g gs ih =>
    intro stack
    have hgs : Delimited gs := fun x hx => h x (List.mem_cons_of_mem _ hx)
    by_cases hg : g.cls.isBracket = true
    · have hcls := h g List.mem_cons_self hg
      rw [bracketText_bracket hg, openAfter, openAfter, ← hcls]
      simp only [ih hgs]
    · rw [Bool.not_eq_true] at hg
      rw [bracketText_item hg, openAfter_item hg]
      exact ih hgs stack

theorem wellNested_of_forest {f : Forest Glyph} (hf : f.Fits Glyph.cls) (h : Delimited f.word) :
    WellNested (bracketText f.word) := by
  induction f with
  | nil => exact .nil
  | item g rest ih =>
    rw [Forest.word, bracketText_item hf.1]
    exact ih hf.2 fun x hx => h x (List.mem_cons_of_mem _ hx)
  | group o inner c rest ihi ihr =>
    obtain ⟨⟨b, ho, hc⟩, hi, hr⟩ := hf
    have hinner : Delimited inner.word := fun x hx => h x (by simp [Forest.word, hx])
    have hrest : Delimited rest.word := fun x hx => h x (by simp [Forest.word, hx])
    rw [Forest.word, h.bracketText_opener (by simp [Forest.word]) ho, bracketText_append,
      h.bracketText_closer (by simp [Forest.word]) hc]
    exact .pair b (ihi hi hinner) (ihr hr hrest)

/-- **Glyphs are nested iff their brackets spell a word of the language.** -/
theorem nested_iff_wellNested (h : Delimited gs) :
    Nested Glyph.cls gs ↔ WellNested (bracketText gs) := by
  constructor
  · rintro ⟨f, hf, rfl⟩
    exact wellNested_of_forest hf h
  · intro hw
    rw [nested_iff_openAfter, h.openAfter_bracketText]
    exact hw.openAfter_eq []

end Delimited

theorem Source.Classed.delimited {src : Source} (h : src.Classed) : Delimited src := by
  intro g hg hb
  rcases h g hg with hs | hs
  · rw [hs] at hb
    cases hb
  · exact hs

/-! ### The group at a position -/

namespace Source

variable {src : Source} {p : Int} {c stop : Nat}

/-- **The bracket at `p` is closed at `c`**, which lies before `stop`: the brackets from `p` through
`c` spell a word of the language whose first bracket, that at `p`, is closed by its last, that at
`c`. -/
structure Encloses (src : Source) (p : Int) (stop c : Nat) : Prop where
  lt : p < c
  lt_stop : c < stop
  opener : src.kind? p = some .opener
  closer : src.kind? c = some .closer
  word : ∃ (b : Bracket) (u : Text), WellNested u ∧
    bracketText (src.window ⟨p.toNat, c + 1⟩) = b.opening :: (u ++ [b.closing])

theorem nonneg_of_kind? {k : Kind} (h : src.kind? p = some k) : 0 ≤ p := by
  by_contra hneg
  simp [kind?, Int.not_le.mp hneg] at h

/-- A stretch from one glyph to a later one, with the two split off. -/
theorem window_eq_ends {n : Nat} {o g : Glyph} (ho : src[n]? = some o) (hg : src[c]? = some g)
    (hlt : n < c) : src.window ⟨n, c + 1⟩ = o :: (src.window ⟨n + 1, c⟩ ++ [g]) := by
  rw [window_eq_cons ho (by omega), ← src.window_append (show n + 1 ≤ c from hlt) (Nat.le_succ c),
    window_succ hg]

theorem delimited_window (h : Delimited src) (e : Extent) : Delimited (src.window e) :=
  fun g hg => h g (List.mem_of_mem_drop (List.mem_of_mem_take hg))

/-- **The words of the language are the groups.** -/
theorem encloses_iff_groupAt (hsrc : Delimited src) (n : Nat) :
    src.Encloses n stop c ↔ src.GroupAt n c ∧ c < stop := by
  constructor
  · rintro ⟨hlt, hstop, hopen, hclose, b, u, hu, hword⟩
    have hlt' : n < c := by omega
    rw [kind?_natCast, Option.map_eq_some_iff] at hopen hclose
    obtain ⟨o, ho, hok⟩ := hopen
    obtain ⟨g, hg, hgk⟩ := hclose
    obtain ⟨bo, hob⟩ := Glyph.kind_eq_opener.mp hok
    obtain ⟨bg, hgb⟩ := Glyph.kind_eq_closer.mp hgk
    rw [Int.toNat_natCast, window_eq_ends ho hg hlt',
      hsrc.bracketText_opener (List.mem_of_getElem? ho) hob, bracketText_append,
      hsrc.bracketText_closer (List.mem_of_getElem? hg) hgb] at hword
    obtain ⟨hfirst, hrest⟩ := List.cons.inj hword
    obtain ⟨hinner, hlast⟩ := List.append_inj' hrest rfl
    have hbo : bo = b := by
      have := congrArg baseClass hfirst
      simpa [baseClass_opening] using this
    have hbg : bg = b := by
      have := congrArg baseClass (List.cons.inj hlast).1
      simpa [baseClass_closing] using this
    refine ⟨⟨b, o, g, ho, hbo ▸ hob, hg, hbg ▸ hgb, hlt', ?_⟩, hstop⟩
    rw [(delimited_window hsrc _).nested_iff_wellNested, hinner]
    exact hu
  · rintro ⟨⟨b, o, g, ho, hob, hg, hgb, hlt, hn⟩, hstop⟩
    refine ⟨by omega, hstop, ?_, ?_, b, bracketText (src.window ⟨n + 1, c⟩),
      (delimited_window hsrc _).nested_iff_wellNested.mp hn, ?_⟩
    · rw [kind?_natCast, ho, Option.map_some, Glyph.kind_eq_opener.mpr ⟨b, hob⟩]
    · rw [kind?_natCast, hg, Option.map_some, Glyph.kind_eq_closer.mpr ⟨b, hgb⟩]
    · rw [Int.toNat_natCast, window_eq_ends ho hg hlt,
        hsrc.bracketText_opener (List.mem_of_getElem? ho) hob, bracketText_append,
        hsrc.bracketText_closer (List.mem_of_getElem? hg) hgb]
      rfl

/-- The walk from an opener, as a walk over the glyphs of its stretch. -/
theorem findCloser_eq (hstop : stop ≤ src.length) {n : Nat} (hopen : src.kind? n = some .opener) :
    src.findCloser n stop = .ok ((groupEnd? (src.window ⟨n, stop⟩)).map (n + ·)) := by
  have hover : src.overruns ⟨n, stop⟩ = false := overruns_eq_false hstop
  rw [findCloser, if_pos hopen]
  simp only [Int.toNat_natCast, hover]
  by_cases hn : n < stop
  · rw [kind?_natCast] at hopen
    obtain ⟨o, ho, hk⟩ := Option.map_eq_some_iff.mp hopen
    rw [window_eq_cons ho hn]
    simp only [groupEnd?, hk, if_true]
    cases closing [] (o :: src.window ⟨n + 1, stop⟩) <;> rfl
  · have hnil : src.window ⟨n, stop⟩ = [] := by
      simp [window, Nat.sub_eq_zero_of_le (Nat.not_lt.mp hn)]
    rw [hnil]
    rfl

theorem groupAt_of_groupEnd?_window {n d : Nat} (hstop : stop ≤ src.length)
    (h : groupEnd? (src.window ⟨n, stop⟩) = some d) : src.GroupAt n (n + d) ∧ n + d < stop := by
  obtain ⟨o, g, b, u, v, hw, ho, hg, hu, rfl⟩ := exists_group_of_groupEnd? h
  obtain ⟨rest, hrest⟩ := window_isPrefix src ⟨n, stop⟩
  constructor
  · refine groupAt_of_groupEnd? ?_
    rw [← hrest, hw, List.cons_append, List.append_assoc, List.cons_append]
    exact groupEnd?_group ho hg hu _
  · have hlen := src.length_window ⟨n, stop⟩ hstop
    rw [hw] at hlen
    simp only [List.length_cons, List.length_append] at hlen
    omega

end Source

/-- **The walk from an opener decides the bracket language.** It ends, and it answers `c` iff the
brackets from `p` through `c` spell a word in which the one at `p` is closed at `c`; it answers
nothing iff there is no such position before `stop`, and there is never more than one. -/
theorem findCloser_decides_brackets {src : Source} (hsrc : Delimited src) (p : Int) (stop : Nat)
    (hstop : stop ≤ src.length) :
    ∃ r, src.findCloser p stop = .ok r ∧
      (∀ c, r = some c ↔ src.Encloses p stop c) ∧
      (r = none ↔ ¬ ∃ c, src.Encloses p stop c) ∧
      ∀ c c', src.Encloses p stop c → src.Encloses p stop c' → c = c' := by
  -- the first equivalence carries the other two statements
  suffices h : ∃ r, src.findCloser p stop = .ok r ∧ ∀ c, r = some c ↔ src.Encloses p stop c by
    obtain ⟨r, hr, hiff⟩ := h
    refine ⟨r, hr, hiff, ?_, fun c c' hc hc' => ?_⟩
    · rw [Option.eq_none_iff_forall_ne_some, not_exists]
      exact forall_congr' fun c => not_congr (hiff c)
    · rw [← hiff] at hc hc'
      exact Option.some_inj.mp (hc.symm.trans hc')
  by_cases hopen : src.kind? p = some .opener
  · obtain ⟨n, rfl⟩ := Int.eq_ofNat_of_zero_le (Source.nonneg_of_kind? hopen)
    refine ⟨_, Source.findCloser_eq hstop hopen, fun c => ?_⟩
    rw [Source.encloses_iff_groupAt hsrc, Option.map_eq_some_iff]
    constructor
    · rintro ⟨d, hd, rfl⟩
      exact Source.groupAt_of_groupEnd?_window hstop hd
    · rintro ⟨hg, hc⟩
      exact ⟨c - n, hg.groupEnd?_window hc, Nat.add_sub_cancel' hg.lt.le⟩
  · refine ⟨none, by rw [Source.findCloser, if_neg hopen], fun c => ?_⟩
    constructor
    · rintro ⟨⟩
    · intro h
      exact absurd h.opener hopen

/-- In `A<(operator>>)>` two of the angles belong to a symbol, and the first angle is closed by the
last one. In `A<(b>)` it is closed nowhere, because a wrong closer comes inside. -/
theorem findCloser_decides_brackets_angles :
    (Source.ofText "A<(operator>>)>".toList).Encloses 1 15 14 ∧
      ¬ ∃ c, (Source.ofText "A<(b>)".toList).Encloses 1 6 c := by
  constructor
  · obtain ⟨r, hr, hiff, -⟩ := findCloser_decides_brackets
      (Source.classed_ofText "A<(operator>>)>".toList).delimited 1 15 (by decide)
    rw [← hiff]
    exact Except.ok.inj (hr.symm.trans (by decide +kernel))
  · obtain ⟨r, hr, -, hnone, -⟩ := findCloser_decides_brackets
      (Source.classed_ofText "A<(b>)".toList).delimited 1 6 (by decide)
    rw [← hnone]
    exact Except.ok.inj (hr.symm.trans (by decide +kernel))

end DiagLayout
