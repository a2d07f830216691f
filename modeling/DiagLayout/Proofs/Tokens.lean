import DiagLayout.Token
import DiagLayout.Proofs.Nesting
import Mathlib.Data.List.Infix
import Mathlib.Data.List.TakeWhile

/-!
# Tokens of a nested stretch

Every bracket of a stretch starts a token of its own, and the tail of a token holds no bracket
(`Token.Formed`). The tokens of a stretch lie one behind the other and read what the source has at
their positions (`Tiled`). So the tokens of a nested stretch are nested again, and they form a
forest whose groups have their places in the source: `Laid src i f j` says that the forest `f`
covers the positions from `i` to `j`, and `exists_laid` that every balanced stretch is covered so.
-/

namespace DiagLayout

/-! ### Windows -/

namespace Source

variable (src : Source)

@[simp] theorem length_window (e : Extent) (h : e.stop ≤ src.length) :
    (src.window e).length = e.stop - e.start := by
  simp only [window, List.length_take, List.length_drop]
  omega

theorem window_append {i j k : Nat} (hij : i ≤ j) (hjk : j ≤ k) :
    src.window ⟨i, j⟩ ++ src.window ⟨j, k⟩ = src.window ⟨i, k⟩ := by
  have hdrop : src.drop j = (src.drop i).drop (j - i) := by
    rw [List.drop_drop]; congr 1; omega
  simp only [window, hdrop, ← List.take_add]
  congr 1; omega

theorem take_window {i j n : Nat} (h : i + n ≤ j) :
    (src.window ⟨i, j⟩).take n = src.window ⟨i, i + n⟩ := by
  simp only [window, List.take_take]
  congr 1; omega

@[simp] theorem window_self (i : Nat) : src.window ⟨i, i⟩ = [] := by simp [window]

/-- The glyphs at the start of what the source has from `i` on are a window. -/
theorem window_of_prefix {gs : List Glyph} {i : Nat} (h : gs <+: src.drop i) :
    src.window ⟨i, i + gs.length⟩ = gs := by
  rw [window, Nat.add_sub_cancel_left]
  exact (List.prefix_iff_eq_take.mp h).symm

/-- **A balanced stretch**: the groups between the positions `i` and `j` are whole. -/
structure Balanced (i j : Nat) : Prop where
  le : i ≤ j
  nested : Nested Glyph.cls (src.window ⟨i, j⟩)

namespace Balanced

variable {src} {i j k : Nat}

theorem trans (h : src.Balanced i j) (h' : src.Balanced j k) : src.Balanced i k := by
  refine ⟨Nat.le_trans h.le h'.le, ?_⟩
  rw [← src.window_append h.le h'.le]
  exact h.nested.append h'.nested

/-- What is left of a balanced stretch behind a balanced start. -/
theorem tail (h : src.Balanced i j) (h' : src.Balanced i k) (hle : j ≤ k) : src.Balanced j k := by
  refine ⟨hle, ?_⟩
  have hn := h'.nested
  rw [← src.window_append h.le hle] at hn
  exact h.nested.append_iff.mp hn

theorem of_items (hle : i ≤ j) (h : ∀ g ∈ src.window ⟨i, j⟩, g.cls.isBracket = false) :
    src.Balanced i j := ⟨hle, Nested.of_items h⟩

theorem refl (i : Nat) : src.Balanced i i := of_items (Nat.le_refl i) (by simp)

end Balanced

end Source

/-! ### The shape of a token -/

namespace Token

/-- The part that a token plays: that of its first glyph. -/
def cls (t : Token) : CharClass := (t.glyphs.head?.map Glyph.cls).getD .symbol

/-- **The shape of a token**: a glyph of its kind and a tail without brackets, which is empty after
an opener. -/
def Formed (t : Token) : Prop :=
  ∃ g tail, t.glyphs = g :: tail ∧ t.kind = g.kind ∧ (∀ x ∈ tail, x.cls.isBracket = false) ∧
    (t.kind = .opener → tail = [])

theorem Formed.kind_eq {t : Token} (h : t.Formed) : t.kind = t.cls.kind := by
  obtain ⟨g, tail, hg, hk, -, -⟩ := h
  rw [hk, cls, hg]; rfl

theorem Formed.kind_opener {t : Token} {b : Bracket} (h : t.Formed) (hb : t.cls = .opener b) :
    t.kind = .opener := by
  rw [h.kind_eq, hb]; rfl

theorem Formed.kind_closer {t : Token} {b : Bracket} (h : t.Formed) (hb : t.cls = .closer b) :
    t.kind = .closer := by
  rw [h.kind_eq, hb]; rfl

theorem Formed.kind_item {t : Token} (h : t.Formed) (hb : t.cls.isBracket = false) :
    t.kind ≠ .opener ∧ t.kind ≠ .closer := by
  rw [h.kind_eq]
  cases hc : t.cls <;> simp_all [CharClass.isBracket, CharClass.kind]

theorem Formed.lt_stop {t : Token} (h : t.Formed) : t.start < t.stop := by
  obtain ⟨g, tail, hg, -⟩ := h
  simp [stop, hg]

theorem Formed.glyphs_opener {t : Token} {b : Bracket} (h : t.Formed) (hb : t.cls = .opener b) :
    ∃ g, t.glyphs = [g] ∧ g.cls = .opener b := by
  have hk := h.kind_eq
  obtain ⟨g, tail, hg, -, -, ho⟩ := h
  rw [hb] at hk
  rw [ho hk] at hg
  exact ⟨g, hg, by simpa [cls, hg] using hb⟩

theorem Formed.stop_opener {t : Token} {b : Bracket} (h : t.Formed) (hb : t.cls = .opener b) :
    t.stop = t.start + 1 := by
  obtain ⟨g, hg, -⟩ := h.glyphs_opener hb
  simp [stop, hg]

theorem Formed.glyphs_closer {t : Token} {b : Bracket} (h : t.Formed) (hb : t.cls = .closer b) :
    ∃ g tail, t.glyphs = g :: tail ∧ g.cls = .closer b ∧ ∀ x ∈ tail, x.cls.isBracket = false := by
  obtain ⟨g, tail, hg, -, ht, -⟩ := h
  exact ⟨g, tail, hg, by simpa [cls, hg] using hb, ht⟩

/-- The glyphs of a token that is no bracket are none either. -/
theorem Formed.glyphs_item {t : Token} (h : t.Formed) (hb : t.cls.isBracket = false) :
    ∀ x ∈ t.glyphs, x.cls.isBracket = false := by
  obtain ⟨g, tail, hg, -, ht, -⟩ := h
  have hgb : g.cls.isBracket = false := by simpa [cls, hg] using hb
  rw [hg]
  intro x hx
  rcases List.mem_cons.mp hx with rfl | hx
  · exact hgb
  · exact ht x hx

theorem Formed.openAfter_glyphs {t : Token} (h : t.Formed) (stack : List Bracket)
    (gs : List Glyph) :
    openAfter Glyph.cls stack (t.glyphs ++ gs) =
      (openAfter Token.cls stack [t]).bind (openAfter Glyph.cls · gs) := by
  obtain ⟨g, tail, hg, -, ht, -⟩ := h
  have hcls : t.cls = g.cls := by simp [cls, hg]
  have hhead : openAfter Token.cls stack [t] = openAfter Glyph.cls stack [g] := by
    simp only [openAfter, hcls]
  have hsplit : t.glyphs ++ gs = [g] ++ (tail ++ gs) := by simp [hg]
  have htail : ∀ st, openAfter Glyph.cls st (tail ++ gs) = openAfter Glyph.cls st gs := fun st => by
    rw [openAfter_append, (Nested.of_items ht).openAfter_eq, Option.bind_some]
  rw [hsplit, openAfter_append, hhead]
  simp only [htail]

theorem Formed.depth_glyphs {t : Token} (h : t.Formed) :
    depth Glyph.cls t.glyphs = t.cls.delta := by
  obtain ⟨g, tail, hg, -, ht, -⟩ := h
  rw [cls, hg, depth_cons, (Nested.of_items ht).depth_eq_zero]
  simp

end Token

/-- The stack sees no difference between formed tokens and their glyphs. -/
theorem openAfter_tokens {ts : List Token} (h : ∀ t ∈ ts, t.Formed) :
    ∀ stack : List Bracket,
      openAfter Token.cls stack ts = openAfter Glyph.cls stack (ts.flatMap Token.glyphs) := by
  induction ts with
  | nil => intro stack; rfl
  | cons t ts ih =>
    intro stack
    have hts := ih fun x hx => h x (List.mem_cons_of_mem _ hx)
    rw [List.flatMap_cons, (h t List.mem_cons_self).openAfter_glyphs, ← List.singleton_append,
      openAfter_append]
    simp only [hts]

/-! ### Cutting into tokens -/

theorem take_runLength (k : Kind) (gs : List Glyph) :
    gs.take (runLength k gs) = gs.takeWhile (Glyph.isKind k) :=
  (List.prefix_iff_eq_take.mp (List.takeWhile_prefix _)).symm

theorem runLength_le (k : Kind) (gs : List Glyph) : runLength k gs ≤ gs.length :=
  (List.takeWhile_prefix _).length_le

theorem not_isBracket_of_isKind {k : Kind} {g : Glyph} (ho : k ≠ .opener) (hc : k ≠ .closer)
    (h : g.isKind k = true) : g.cls.isBracket = false := by
  simp only [Glyph.isKind, Glyph.kind, beq_iff_eq] at h
  cases hg : g.cls <;> simp_all [CharClass.kind, CharClass.isBracket]

/-- A run of glyphs that are no brackets. -/
theorem not_isBracket_of_mem_run {k : Kind} {gs : List Glyph} {x : Glyph} (ho : k ≠ .opener)
    (hc : k ≠ .closer) (hx : x ∈ gs.take (runLength k gs)) : x.cls.isBracket = false := by
  rw [take_runLength] at hx
  exact not_isBracket_of_isKind ho hc (List.mem_takeWhile_imp hx)

theorem tokenTail_le (k : Kind) (gs : List Glyph) : tokenTail k gs ≤ gs.length := by
  have hs := runLength_le .space gs
  have hp := runLength_le .separator gs
  have hy := runLength_le .symbol gs
  have hd := runLength_le .space (gs.drop (runLength .separator gs))
  rw [List.length_drop] at hd
  cases k <;> simp only [tokenTail] <;> (try split_ifs) <;> omega

theorem not_isBracket_of_mem_tail {k : Kind} {gs : List Glyph} {x : Glyph}
    (hx : x ∈ gs.take (tokenTail k gs)) : x.cls.isBracket = false := by
  cases k with
  | separator =>
    rw [tokenTail, List.take_add] at hx
    rcases List.mem_append.mp hx with hx | hx
    · exact not_isBracket_of_mem_run (by simp) (by simp) hx
    · exact not_isBracket_of_mem_run (by simp) (by simp) hx
  | opener => simp [tokenTail] at hx
  | closer =>
    simp only [tokenTail] at hx
    split_ifs at hx
    · exact not_isBracket_of_mem_run (by simp) (by simp) hx
    · simp at hx
  | space => exact not_isBracket_of_mem_run (by simp) (by simp) hx
  | symbol => exact not_isBracket_of_mem_run (by simp) (by simp) hx

/-- A token in its place: it starts at `i` and reads what the source has there. -/
structure Token.At (src : Source) (i : Nat) (t : Token) : Prop where
  start_eq : t.start = i
  reads : t.glyphs = src.window t.extent
  formed : t.Formed

/-- The tokens lie one behind the other from the position `i` on. -/
def Tiled (src : Source) : Nat → List Token → Prop
  | _, [] => True
  | i, t :: ts => t.At src i ∧ Tiled src t.stop ts

theorem Tiled.formed {src : Source} {ts : List Token} : ∀ {i : Nat}, Tiled src i ts →
    ∀ t ∈ ts, t.Formed := by
  induction ts with
  | nil => simp
  | cons t ts ih =>
    intro i h x hx
    rcases List.mem_cons.mp hx with rfl | hx
    · exact h.1.formed
    · exact ih h.2 x hx

theorem tiled_tokensFrom {src : Source} (n : Nat) : ∀ (i : Nat) (gs : List Glyph),
    gs.length ≤ n → gs <+: src.drop i →
      Tiled src i (tokensFrom i gs) ∧ (tokensFrom i gs).flatMap Token.glyphs = gs := by
  induction n with
  | zero =>
    intro i gs hn _
    obtain rfl : gs = [] := List.eq_nil_of_length_eq_zero (by omega)
    simp [tokensFrom, Tiled]
  | succ n ih =>
    intro i gs hn hp
    rcases gs with _ | ⟨g, gs⟩
    · simp [tokensFrom, Tiled]
    rw [tokensFrom]
    set m := tokenTail g.kind gs with hm
    have hlen : (gs.take m).length = m := by
      rw [List.length_take, Nat.min_eq_left (hm ▸ tokenTail_le g.kind gs)]
    have hsplit : (g :: gs.take m) ++ gs.drop m = g :: gs := by simp
    have hhead : (g :: gs.take m) <+: src.drop i :=
      (hsplit ▸ List.prefix_append (g :: gs.take m) (gs.drop m)).trans hp
    have hrest : gs.drop m <+: src.drop (i + (m + 1)) := by
      have := hp.drop (m + 1)
      rwa [List.drop_succ_cons, List.drop_drop] at this
    have hat : Token.At src i ⟨g.kind, i, g :: gs.take m⟩ := by
      refine ⟨rfl, ?_, g, gs.take m, rfl, rfl, fun x hx => not_isBracket_of_mem_tail hx, ?_⟩
      · exact (src.window_of_prefix hhead).symm
      · intro ho
        have : m = 0 := by rw [hm, show g.kind = .opener from ho]; rfl
        simp [this]
    have hstop : (Token.mk g.kind i (g :: gs.take m)).stop = i + (m + 1) := by
      simp [Token.stop, hlen]
    obtain ⟨h1, h2⟩ := ih (i + (m + 1)) (gs.drop m) (by simp at hn ⊢; omega) hrest
    refine ⟨⟨hat, by rw [hstop]; exact h1⟩, ?_⟩
    rw [List.flatMap_cons, h2]
    exact hsplit

theorem window_isPrefix (src : Source) (e : Extent) : src.window e <+: src.drop e.start :=
  List.take_prefix _ _

/-- **The tokens of a stretch tile it.** -/
theorem tiled_tokens (src : Source) (e : Extent) : Tiled src e.start (src.tokens e) :=
  (tiled_tokensFrom _ _ _ (Nat.le_refl _) (window_isPrefix src e)).1

theorem flatMap_glyphs_tokens (src : Source) (e : Extent) :
    (src.tokens e).flatMap Token.glyphs = src.window e :=
  (tiled_tokensFrom _ _ _ (Nat.le_refl _) (window_isPrefix src e)).2

/-! ### Forests in their places -/

/-- **A forest of tokens in its place**: it covers the positions from `i` to `j`. -/
inductive Laid (src : Source) : Nat → Forest Token → Nat → Prop
  | nil {i : Nat} : Laid src i .nil i
  | item {i j : Nat} {t : Token} {rest : Forest Token} (ht : t.At src i)
      (hb : t.cls.isBracket = false) (hr : Laid src t.stop rest j) : Laid src i (.item t rest) j
  | group {i j : Nat} {b : Bracket} {o c : Token} {inner rest : Forest Token} (ho : o.At src i)
      (hob : o.cls = .opener b) (hi : Laid src o.stop inner c.start) (hc : c.At src c.start)
      (hcb : c.cls = .closer b) (hr : Laid src c.stop rest j) :
      Laid src i (.group o inner c rest) j

/-- Tiles in front of which a forest stands. -/
theorem exists_laid_of_tiled {src : Source} {f : Forest Token} (hf : f.Fits Token.cls) :
    ∀ {i : Nat} {ts : List Token}, Tiled src i (f.word ++ ts) →
      ∃ j, Laid src i f j ∧ Tiled src j ts ∧ j = i + (f.word.flatMap Token.glyphs).length := by
  induction f with
  | nil => intro i ts h; exact ⟨i, .nil, h, rfl⟩
  | item t rest ih =>
    intro i ts h
    obtain ⟨hat, hrest⟩ := h
    obtain ⟨j, hl, hts, hj⟩ := ih hf.2 hrest
    refine ⟨j, .item hat hf.1 hl, hts, ?_⟩
    rw [hj, Forest.word, List.flatMap_cons, List.length_append, Token.stop, hat.start_eq,
      Nat.add_assoc]
  | group o inner c rest ihi ihr =>
    intro i ts h
    obtain ⟨⟨b, hob, hcb⟩, hi, hr⟩ := hf
    simp only [Forest.word, List.cons_append, List.append_assoc] at h
    obtain ⟨hato, h⟩ := h
    obtain ⟨k, hinner, ⟨hatc, h⟩, hk⟩ := ihi hi h
    obtain rfl : c.start = k := hatc.start_eq
    obtain ⟨j, hrest, hts, hj⟩ := ihr hr h
    refine ⟨j, .group hato hob hinner hatc hcb hrest, hts, ?_⟩
    have hos : o.stop = i + o.glyphs.length := by rw [Token.stop, hato.start_eq]
    have hcs : c.stop = c.start + c.glyphs.length := rfl
    simp only [Forest.word, List.flatMap_cons, List.flatMap_append, List.length_append]
    omega

/-- **Every balanced stretch is covered by a forest of its tokens.** -/
theorem exists_laid {src : Source} {e : Extent} (h : src.Balanced e.start e.stop)
    (hlen : e.stop ≤ src.length) : ∃ f, f.word = src.tokens e ∧ Laid src e.start f e.stop := by
  have ht := tiled_tokens src e
  have hn : Nested Token.cls (src.tokens e) := by
    rw [nested_iff_openAfter, openAfter_tokens ht.formed, flatMap_glyphs_tokens]
    exact h.nested.openAfter_eq []
  have hle := h.le
  obtain ⟨f, hf, hw⟩ := hn
  rw [← hw, ← List.append_nil f.word] at ht
  obtain ⟨j, hl, -, hj⟩ := exists_laid_of_tiled hf ht
  rw [hw, flatMap_glyphs_tokens, src.length_window e hlen] at hj
  obtain rfl : j = e.stop := by omega
  exact ⟨f, hw, hl⟩

namespace Laid

variable {src : Source} {i j : Nat} {f : Forest Token}

theorem fits (h : Laid src i f j) : f.Fits Token.cls := by
  induction h with
  | nil => trivial
  | item _ hb _ ih => exact ⟨hb, ih⟩
  | group _ hob _ _ hcb _ ihi ihr => exact ⟨⟨_, hob, hcb⟩, ihi, ihr⟩

theorem le (h : Laid src i f j) : i ≤ j := by
  induction h with
  | nil => exact Nat.le_refl _
  | item ht _ _ ih =>
    have h1 := ht.formed.lt_stop
    have h2 := ht.start_eq
    omega
  | group ho _ _ hc _ _ ihi ihr =>
    have h1 := ho.formed.lt_stop
    have h2 := ho.start_eq
    have h3 := hc.formed.lt_stop
    omega

theorem eq_of_nil (h : Laid src i .nil j) : i = j := by
  cases h
  rfl

/-- Where the token in front of a forest lies. -/
theorem item_bounds {t : Token} (ht : t.At src i) (hr : Laid src t.stop f j) :
    t.start = i ∧ i < t.stop ∧ t.stop ≤ j := by
  have h1 := ht.formed.lt_stop
  have h2 := ht.start_eq
  exact ⟨h2, by omega, hr.le⟩

/-- Where the brackets of a group lie. -/
theorem group_bounds {b : Bracket} {o c : Token} {inner : Forest Token} (ho : o.At src i)
    (hob : o.cls = .opener b) (hi : Laid src o.stop inner c.start) (hc : c.At src c.start)
    (hr : Laid src c.stop f j) :
    o.start = i ∧ o.stop = o.start + 1 ∧ o.stop ≤ c.start ∧ c.start < c.stop ∧ c.stop ≤ j :=
  ⟨ho.start_eq, ho.formed.stop_opener hob, hi.le, hc.formed.lt_stop, hr.le⟩

theorem lt_of_ne_nil (h : Laid src i f j) (hf : f ≠ .nil) : i < j := by
  cases h with
  | nil => exact absurd rfl hf
  | item ht _ hr => obtain ⟨-, h1, h2⟩ := item_bounds ht hr; omega
  | group ho hob hi hc _ hr => obtain ⟨h1, h2, h3, h4, h5⟩ := group_bounds ho hob hi hc hr; omega

/-- The glyphs of the forest are those of the source. -/
theorem glyphs_eq (h : Laid src i f j) : f.word.flatMap Token.glyphs = src.window ⟨i, j⟩ := by
  induction h with
  | nil => simp [Forest.word]
  | @item i j t rest ht _ hr ih =>
    have hlt := ht.formed.lt_stop
    rw [Forest.word, List.flatMap_cons, ih, ht.reads, Token.extent,
      src.window_append (Nat.le_of_lt hlt) hr.le, ht.start_eq]
  | @group i j b o c inner rest ho hob hi hc hcb hr ihi ihr =>
    have hlo := ho.formed.lt_stop
    have hlc := hc.formed.lt_stop
    rw [Forest.word, List.flatMap_cons, List.flatMap_append, List.flatMap_cons, ihi, ihr, ho.reads,
      hc.reads, Token.extent, Token.extent, src.window_append (Nat.le_of_lt hlc) hr.le,
      src.window_append hi.le (by have := hr.le; omega),
      src.window_append (Nat.le_of_lt hlo) (by have := hi.le; have := hr.le; omega), ho.start_eq]

theorem formed (h : Laid src i f j) : ∀ t ∈ f.word, t.Formed := by
  induction h with
  | nil => simp [Forest.word]
  | item ht _ _ ih =>
    intro x hx
    rcases List.mem_cons.mp hx with rfl | hx
    · exact ht.formed
    · exact ih x hx
  | group ho _ _ hc _ _ ihi ihr =>
    intro x hx
    simp only [Forest.word, List.mem_cons, List.mem_append] at hx
    rcases hx with rfl | hx | rfl | hx
    · exact ho.formed
    · exact ihi x hx
    · exact hc.formed
    · exact ihr x hx

/-- What a forest covers is balanced. -/
theorem balanced (h : Laid src i f j) : src.Balanced i j := by
  refine ⟨h.le, ?_⟩
  rw [← h.glyphs_eq, nested_iff_openAfter, ← openAfter_tokens h.formed]
  exact openAfter_forest h.fits []

end Laid

end DiagLayout
