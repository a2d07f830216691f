import DiagLayout.Source
import Mathlib.Tactic.Common

/-!
# Nested words

A word is *nested* if every opener in it has a closer of the same bracket after it, and what stands
between the two is nested again. A `Forest` is such a word with its groups made visible: it is
empty, or starts with an item that is no bracket, or with a group. The words are lists over any type
whose members play parts (`cls`), so that the same notions serve glyphs and tokens.

* `openAfter`: the stack of brackets open after a word, which is how the program sees nesting;
  `nested_iff_openAfter`: a word is nested iff the stack is empty at its end;
* `groupEnd?_group`: the walk from an opener ends at the closer of its group;
* `nested_of_groupEnd?`: what a successful walk goes over is nested;
* `depth`: openers minus closers, zero over a nested word (`Nested.depth_eq_zero`) and never
  negative before its end (`Nested.depth_take_nonneg`).
-/

namespace DiagLayout

variable {α : Type} {cls : α → CharClass}

/-- The part is that of an opener or of a closer. -/
def CharClass.isBracket : CharClass → Bool
  | opener _ | closer _ => true
  | _ => false

/-- A word with its groups made visible. -/
inductive Forest (α : Type) where
  | nil
  | item (a : α) (rest : Forest α)
  | group (o : α) (inner : Forest α) (c : α) (rest : Forest α)

namespace Forest

/-- The word of a forest. -/
def word : Forest α → List α
  | nil => []
  | item a rest => a :: rest.word
  | group o inner c rest => o :: (inner.word ++ c :: rest.word)

/-- The items are no brackets, and every group closes with the bracket that opens it. -/
def Fits (cls : α → CharClass) : Forest α → Prop
  | nil => True
  | item a rest => (cls a).isBracket = false ∧ rest.Fits cls
  | group o inner c rest =>
    (∃ b, cls o = .opener b ∧ cls c = .closer b) ∧ inner.Fits cls ∧ rest.Fits cls

end Forest

/-- **A nested word**: the word of a forest. -/
def Nested (cls : α → CharClass) (w : List α) : Prop := ∃ f : Forest α, f.Fits cls ∧ f.word = w

/-! ### The stack of open brackets -/

/-- The brackets open after a word, the innermost first, where `stack` are those open before it;
nothing if a closer comes that closes none of them. -/
def openAfter (cls : α → CharClass) : List Bracket → List α → Option (List Bracket)
  | stack, [] => some stack
  | stack, a :: w =>
    match cls a with
    | .opener b => openAfter cls (b :: stack) w
    | .closer b =>
      match stack with
      | [] => none
      | top :: below => if top = b then openAfter cls below w else none
    | _ => openAfter cls stack w

theorem openAfter_opener {a : α} {b : Bracket} (h : cls a = .opener b) (stack : List Bracket)
    (w : List α) : openAfter cls stack (a :: w) = openAfter cls (b :: stack) w := by
  simp [openAfter, h]

theorem openAfter_closer {a : α} {b : Bracket} (h : cls a = .closer b) (stack : List Bracket)
    (w : List α) : openAfter cls (b :: stack) (a :: w) = openAfter cls stack w := by
  simp [openAfter, h]

theorem openAfter_item {a : α} (h : (cls a).isBracket = false) (stack : List Bracket)
    (w : List α) : openAfter cls stack (a :: w) = openAfter cls stack w := by
  cases hc : cls a <;> simp_all [CharClass.isBracket, openAfter]

theorem openAfter_append (u v : List α) : ∀ stack : List Bracket,
    openAfter cls stack (u ++ v) = (openAfter cls stack u).bind (openAfter cls · v) := by
  induction u with
  | nil => intro stack; rfl
  | cons a u ih =>
    intro stack
    rw [List.cons_append]
    cases hc : cls a with
    | opener b => rw [openAfter_opener hc, openAfter_opener hc]; exact ih _
    | closer b =>
      rcases stack with _ | ⟨top, below⟩
      · simp [openAfter, hc]
      · by_cases h : top = b
        · subst h
          rw [openAfter_closer hc, openAfter_closer hc]
          exact ih below
        · simp [openAfter, hc, h]
    | separator | space | symbol =>
      have ha : (cls a).isBracket = false := by rw [hc]; rfl
      rw [openAfter_item ha, openAfter_item ha]
      exact ih stack

theorem openAfter_forest {f : Forest α} (hf : f.Fits cls) (stack : List Bracket) :
    openAfter cls stack f.word = some stack := by
  induction f generalizing stack with
  | nil => rfl
  | item a rest ih =>
    rw [Forest.word, openAfter_item hf.1]
    exact ih hf.2 stack
  | group o inner c rest ihi ihr =>
    obtain ⟨⟨b, ho, hc⟩, hi, hr⟩ := hf
    rw [Forest.word, openAfter_opener ho, openAfter_append, ihi hi, Option.bind_some,
      openAfter_closer hc]
    exact ihr hr stack

/-- A word that empties a stack splits where the innermost bracket of the stack is closed. -/
theorem exists_forest_of_openAfter (n : Nat) : ∀ w : List α, w.length ≤ n →
    (openAfter cls [] w = some [] → ∃ f : Forest α, f.Fits cls ∧ f.word = w) ∧
    ∀ b stack, openAfter cls (b :: stack) w = some [] → ∃ (f : Forest α) (c : α) (v : List α),
      f.Fits cls ∧ cls c = .closer b ∧ w = f.word ++ c :: v ∧ openAfter cls stack v = some [] := by
  induction n with
  | zero =>
    intro w hw
    obtain rfl : w = [] := List.eq_nil_of_length_eq_zero (by omega)
    exact ⟨fun _ => ⟨.nil, trivial, rfl⟩, fun b stack h => by simp [openAfter] at h⟩
  | succ n ih =>
    intro w hw
    rcases w with _ | ⟨a, w⟩
    · exact ⟨fun _ => ⟨.nil, trivial, rfl⟩, fun b stack h => by simp [openAfter] at h⟩
    have hlen : w.length ≤ n := by simpa using hw
    cases hc : cls a with
    | opener b =>
      -- the group that `a` opens ends inside `w`; what follows it is shorter still
      constructor
      · intro h
        rw [openAfter_opener hc] at h
        obtain ⟨f, c, v, hf, hcc, rfl, hv⟩ := (ih w hlen).2 b [] h
        obtain ⟨g, hg, rfl⟩ := (ih v (by simp at hlen; omega)).1 hv
        exact ⟨.group a f c g, ⟨⟨b, hc, hcc⟩, hf, hg⟩, rfl⟩
      · intro b' stack h
        rw [openAfter_opener hc] at h
        obtain ⟨f, c, v, hf, hcc, rfl, hv⟩ := (ih w hlen).2 b _ h
        obtain ⟨g, c', v', hg, hcc', rfl, hv'⟩ := (ih v (by simp at hlen; omega)).2 b' stack hv
        exact ⟨.group a f c g, c', v', ⟨⟨b, hc, hcc⟩, hf, hg⟩, hcc', by simp [Forest.word], hv'⟩
    | closer b =>
      constructor
      · intro h; simp [openAfter, hc] at h
      · intro b' stack h
        by_cases hb : b' = b
        · subst hb
          rw [openAfter_closer hc] at h
          exact ⟨.nil, a, w, trivial, hc, rfl, h⟩
        · simp [openAfter, hc, hb] at h
    | separator | space | symbol =>
      have ha : (cls a).isBracket = false := by rw [hc]; rfl
      constructor
      · intro h
        rw [openAfter_item ha] at h
        obtain ⟨f, hf, rfl⟩ := (ih w hlen).1 h
        exact ⟨.item a f, ⟨ha, hf⟩, rfl⟩
      · intro b' stack h
        rw [openAfter_item ha] at h
        obtain ⟨f, c, v, hf, hcc, rfl, hv⟩ := (ih w hlen).2 b' stack h
        exact ⟨.item a f, c, v, ⟨ha, hf⟩, hcc, rfl, hv⟩

/-- **Nesting by a stack**: a word is nested iff no bracket is open at its end. -/
theorem nested_iff_openAfter {w : List α} : Nested cls w ↔ openAfter cls [] w = some [] := by
  constructor
  · rintro ⟨f, hf, rfl⟩; exact openAfter_forest hf []
  · exact (exists_forest_of_openAfter w.length w (Nat.le_refl _)).1

theorem Nested.openAfter_eq {w : List α} (h : Nested cls w) (stack : List Bracket) :
    openAfter cls stack w = some stack := by
  obtain ⟨f, hf, rfl⟩ := h
  exact openAfter_forest hf stack

/-! ### Nested words put together and taken apart -/

namespace Nested

theorem nil : Nested cls [] := ⟨.nil, trivial, rfl⟩

theorem append_iff {u v : List α} (hu : Nested cls u) : Nested cls (u ++ v) ↔ Nested cls v := by
  rw [nested_iff_openAfter, nested_iff_openAfter, openAfter_append, hu.openAfter_eq,
    Option.bind_some]

theorem append {u v : List α} (hu : Nested cls u) (hv : Nested cls v) : Nested cls (u ++ v) :=
  hu.append_iff.mpr hv

theorem of_items {u : List α} (h : ∀ a ∈ u, (cls a).isBracket = false) : Nested cls u := by
  induction u with
  | nil => exact nil
  | cons a u ih =>
    obtain ⟨f, hf, rfl⟩ := ih fun x hx => h x (List.mem_cons_of_mem _ hx)
    exact ⟨.item a f, ⟨h a List.mem_cons_self, hf⟩, rfl⟩

end Nested

/-! ### Depth -/

/-- How far a part takes the walk into groups. -/
def CharClass.delta : CharClass → Int
  | opener _ => 1
  | closer _ => -1
  | _ => 0

theorem CharClass.delta_of_not_isBracket {k : CharClass} (h : k.isBracket = false) :
    k.delta = 0 := by
  cases k <;> simp_all [isBracket, delta]

/-- **The depth that a word leads to**: its openers less its closers. -/
def depth (cls : α → CharClass) : List α → Int
  | [] => 0
  | a :: w => (cls a).delta + depth cls w

@[simp] theorem depth_nil : depth cls [] = 0 := rfl

@[simp] theorem depth_cons (a : α) (w : List α) :
    depth cls (a :: w) = (cls a).delta + depth cls w := rfl

@[simp] theorem depth_append (u v : List α) : depth cls (u ++ v) = depth cls u + depth cls v := by
  induction u with
  | nil => simp
  | cons a u ih => rw [List.cons_append, depth_cons, depth_cons, ih, Int.add_assoc]

/-- The depth is the growth of the stack. -/
theorem depth_of_openAfter {w : List α} : ∀ {stack stack' : List Bracket},
    openAfter cls stack w = some stack' → depth cls w = (stack'.length : Int) - stack.length := by
  induction w with
  | nil =>
    intro stack stack' h
    cases h
    simp
  | cons a w ih =>
    intro stack stack' h
    rw [depth_cons]
    cases hc : cls a with
    | opener b =>
      rw [openAfter_opener hc] at h
      rw [ih h, List.length_cons, CharClass.delta]
      omega
    | closer b =>
      rcases stack with _ | ⟨top, below⟩
      · simp [openAfter, hc] at h
      · by_cases hb : top = b
        · subst hb
          rw [openAfter_closer hc] at h
          rw [ih h, List.length_cons, CharClass.delta]
          omega
        · simp [openAfter, hc, hb] at h
    | separator | space | symbol =>
      rw [openAfter_item (by rw [hc]; rfl)] at h
      rw [ih h]
      simp [CharClass.delta]

theorem Nested.depth_eq_zero {w : List α} (h : Nested cls w) : depth cls w = 0 := by
  rw [depth_of_openAfter (h.openAfter_eq [])]; simp

/-- Inside a nested word the depth is never negative. -/
theorem Nested.depth_take_nonneg {w : List α} (h : Nested cls w) (n : Nat) :
    0 ≤ depth cls (w.take n) := by
  have hw := h.openAfter_eq []
  rw [← List.take_append_drop n w, openAfter_append] at hw
  obtain ⟨stack, hs, -⟩ := Option.bind_eq_some_iff.mp hw
  rw [depth_of_openAfter hs]
  simp

/-! ### The walk from an opener to its closer -/

/-- The same end, seen from `n` glyphs further left. -/
def Closing.shift (n : Nat) : Closing → Closing
  | closed distance => closed (distance + n)
  | mismatched => mismatched
  | unfinished => unfinished

theorem Closing.next_shift (r : Closing) (n : Nat) : (r.shift n).next = r.shift (n + 1) := by
  cases r <;> simp [next, shift]; omega

theorem Closing.shift_shift (r : Closing) (m n : Nat) : (r.shift m).shift n = r.shift (m + n) := by
  cases r <;> simp [shift]; omega

theorem closing_opener {g : Glyph} {b : Bracket} (h : g.cls = .opener b) (stack : List Bracket)
    (gs : List Glyph) : closing stack (g :: gs) = (closing (b :: stack) gs).next := by
  conv_lhs => unfold closing
  simp [h]

theorem closing_item {g : Glyph} (h : g.cls.isBracket = false) (stack : List Bracket)
    (gs : List Glyph) : closing stack (g :: gs) = (closing stack gs).next := by
  conv_lhs => unfold closing
  cases hc : g.cls <;> simp_all [CharClass.isBracket]

/-- A nested word closes nothing that was open before it. -/
theorem closing_nested {u : List Glyph} (hu : Nested Glyph.cls u) (b : Bracket)
    (stack : List Bracket) (v : List Glyph) :
    closing (b :: stack) (u ++ v) = (closing (b :: stack) v).shift u.length := by
  obtain ⟨f, hf, rfl⟩ := hu
  induction f generalizing b stack v with
  | nil => cases h : closing (b :: stack) v <;> simp [Forest.word, Closing.shift, h]
  | item g rest ih =>
    rw [Forest.word, List.cons_append, closing_item hf.1, ih _ _ _ hf.2, Closing.next_shift]
    rfl
  | group o inner c rest ihi ihr =>
    obtain ⟨⟨k, ho, hc⟩, hi, hr⟩ := hf
    have hstep : closing (k :: b :: stack) (c :: (rest.word ++ v)) =
        (closing (b :: stack) (rest.word ++ v)).next := by
      conv_lhs => unfold closing
      simp [hc]
    have hword : (Forest.group o inner c rest).word ++ v =
        o :: (inner.word ++ c :: (rest.word ++ v)) := by simp [Forest.word]
    have hlength : (Forest.group o inner c rest).word.length =
        rest.word.length + 1 + (inner.word.length + 1) := by simp [Forest.word]; omega
    rw [hword, closing_opener ho, ihi _ _ _ hi, hstep, ihr _ _ _ hr, hlength, Closing.next_shift,
      Closing.next_shift, Closing.shift_shift]

/-- **The walk from an opener ends at the closer of its group.** -/
theorem groupEnd?_group {o c : Glyph} {b : Bracket} {u : List Glyph} (ho : o.cls = .opener b)
    (hc : c.cls = .closer b) (hu : Nested Glyph.cls u) (v : List Glyph) :
    groupEnd? (o :: (u ++ c :: v)) = some (u.length + 1) := by
  have hk : o.kind = .opener := by simp [Glyph.kind, ho, CharClass.kind]
  have hstep : closing [b] (c :: v) = .closed 0 := by
    unfold closing
    simp [hc]
  rw [groupEnd?, if_pos hk, closing_opener ho, closing_nested hu, hstep]
  simp [Closing.shift, Closing.next]

/-- A walk that ends has emptied its stack. -/
theorem openAfter_of_closing {gs : List Glyph} : ∀ {stack : List Bracket} {d : Nat},
    stack ≠ [] → closing stack gs = .closed d →
      d < gs.length ∧ openAfter Glyph.cls stack (gs.take (d + 1)) = some [] := by
  induction gs with
  | nil => intro stack d _ h; simp [closing] at h
  | cons g gs ih =>
    intro stack d hne h
    -- one step of the walk, for the glyphs that do not end it
    have hnext : ∀ {stack' : List Bracket}, stack' ≠ [] →
        (closing stack' gs).next = .closed d →
        (∀ w, openAfter Glyph.cls stack (g :: w) = openAfter Glyph.cls stack' w) →
        d < (g :: gs).length ∧ openAfter Glyph.cls stack ((g :: gs).take (d + 1)) = some [] := by
      intro stack' hne' h' hstep
      cases hcl : closing stack' gs with
      | mismatched => rw [hcl] at h'; simp [Closing.next] at h'
      | unfinished => rw [hcl] at h'; simp [Closing.next] at h'
      | closed d' =>
        rw [hcl] at h'
        obtain rfl : d' + 1 = d := by simpa [Closing.next] using h'
        obtain ⟨hlt, hopen⟩ := ih hne' hcl
        refine ⟨by simpa using hlt, ?_⟩
        rw [List.take_succ_cons, hstep]
        exact hopen
    cases hc : g.cls with
    | opener b =>
      rw [closing_opener hc] at h
      exact hnext (by simp) h fun w => openAfter_opener hc stack w
    | closer b =>
      rcases stack with _ | ⟨top, below⟩
      · exact absurd rfl hne
      unfold closing at h
      simp only [hc] at h
      by_cases hb : top = b
      · subst hb
        rcases below with _ | ⟨b', below⟩
        · obtain rfl : d = 0 := by simpa using h.symm
          exact ⟨by simp, by simp [openAfter, hc]⟩
        · simp only [if_true] at h
          exact hnext (by simp) (by simpa using h) fun w => openAfter_closer hc _ w
      · simp [hb] at h
    | separator | space | symbol =>
      have hg : g.cls.isBracket = false := by rw [hc]; rfl
      rw [closing_item hg] at h
      exact hnext hne h fun w => openAfter_item hg stack w

/-- **What a successful walk goes over is nested**, the opener and the closer included. -/
theorem nested_of_groupEnd? {gs : List Glyph} {d : Nat} (h : groupEnd? gs = some d) :
    d < gs.length ∧ Nested Glyph.cls (gs.take (d + 1)) := by
  rcases gs with _ | ⟨g, gs⟩
  · simp [groupEnd?] at h
  rw [groupEnd?] at h
  by_cases hk : g.kind = .opener
  swap; · simp [hk] at h
  obtain ⟨b, hb⟩ : ∃ b, g.cls = .opener b := by
    cases hc : g.cls <;> simp_all [Glyph.kind, CharClass.kind]
  rw [if_pos hk, closing_opener hb] at h
  cases hcl : closing [b] gs with
  | mismatched => rw [hcl] at h; simp [Closing.next] at h
  | unfinished => rw [hcl] at h; simp [Closing.next] at h
  | closed d' =>
    rw [hcl] at h
    obtain rfl : d' + 1 = d := by simpa [Closing.next] using h
    obtain ⟨hlt, hopen⟩ := openAfter_of_closing (by simp) hcl
    refine ⟨by simpa using hlt, ?_⟩
    rw [nested_iff_openAfter, List.take_succ_cons, openAfter_opener hb]
    exact hopen

end DiagLayout
