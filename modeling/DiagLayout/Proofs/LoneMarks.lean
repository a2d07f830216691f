import DiagLayout.Proofs.FoldTargets
import DiagLayout.Proofs.QuotedLiterals

/-!
# Marks that nothing closes

On its way through a line the search for quotes comes to marks that open a quote and find no mark
that closes it: `Quote.lones`. An apostrophe of this kind is passed over. A left mark ends the
search, so that the quotes behind it are lost.

Would the search come to the same with a space in the place of the mark? `lone_mark_hides` says
when.

* For a left mark, iff there are no quotes behind it: the space brings back exactly those.
* For an apostrophe, iff every lone mark before it stays one. An earlier apostrophe may have read it
  as the end of a character literal, and finds a mark to close its quote when that end is gone. This
  takes a left mark between the two (`LoneAt.left_mem_take`).
-/

namespace DiagLayout

namespace Quote

/-! ### The way of the search -/

/-- The character opens a quote, `before` being the one before it. -/
def opens (before : Option Char) (c : Char) : Bool :=
  c == '‘' || (c == '\'' && !before.any Text.isAlphanumeric)

/-- The number of characters between the mark `c` and the one that closes its quote. -/
def close? (c : Char) (t : Text) : Option Nat :=
  if c = '‘' then t.findIdx? (· == '’') else closingApostrophe? c t

/-- The mark that closes a quote opened by `c`. -/
def closer (c : Char) : Char := if c = '‘' then '’' else c

/-- The positions of the marks that the search comes to and that nothing closes. -/
def loneFrom (pos : Nat) (before : Option Char) : Text → List Nat
  | [] => []
  | c :: t =>
    if opens before c then
      match close? c t with
      | some n => loneFrom (pos + n + 2) (some (closer c)) (t.drop (n + 1))
      | none => if c = '‘' then [pos] else pos :: loneFrom (pos + 1) (some c) t
    else loneFrom (pos + 1) (some c) t
termination_by t => t.length
decreasing_by all_goals simp only [List.length_drop, List.length_cons]; omega

/-- The lone marks of a line. -/
def lones (line : Text) : List Nat := loneFrom 0 none line

section Steps

variable {before : Option Char} {c : Char} {t : Text} {n : Nat} (pos : Nat)

theorem eq_apostrophe_of_opens (h : opens before c = true) (hc : c ≠ '‘') : c = '\'' := by
  simp [opens, hc] at h
  exact h.1

theorem allFrom_pass (h : opens before c = false) :
    allFrom pos before (c :: t) = allFrom (pos + 1) (some c) t := by
  simp only [opens, Bool.or_eq_false_iff, beq_eq_false_iff_ne, Bool.and_eq_false_iff,
    Bool.not_eq_false'] at h
  rw [allFrom, if_neg h.1, if_neg]
  rintro ⟨rfl, hb⟩
  simp [hb] at h

theorem allFrom_closed (h : opens before c = true) (hn : close? c t = some n) :
    allFrom pos before (c :: t) = ofLength (pos + 1) n t ++
      allFrom (pos + n + 2) (some (closer c)) (t.drop (n + 1)) := by
  by_cases hc : c = '‘'
  · subst hc
    rw [close?, if_pos rfl] at hn
    rw [allFrom, if_pos rfl, hn]
    rfl
  · obtain rfl := eq_apostrophe_of_opens h hc
    rw [close?, if_neg hc] at hn
    rw [allFrom, if_neg hc, if_pos ⟨rfl, by simpa [opens] using h⟩, hn]
    rfl

theorem allFrom_lone (h : opens before '\'' = true) (hn : close? '\'' t = none) :
    allFrom pos before ('\'' :: t) = allFrom (pos + 1) (some '\'') t := by
  rw [close?, if_neg (by decide)] at hn
  rw [allFrom, if_neg (by decide), if_pos ⟨rfl, by simpa [opens] using h⟩, hn]

theorem allFrom_left (hn : close? '‘' t = none) : allFrom pos before ('‘' :: t) = [] := by
  rw [close?, if_pos rfl] at hn
  rw [allFrom, if_pos rfl, hn]

/-- A character that is no letter and no number counts for nothing before a text. -/
theorem allFrom_behind (hc : Text.isAlphanumeric c = false) :
    allFrom pos (some c) t = allFrom pos none t := by
  cases t with
  | nil => rw [allFrom, allFrom]
  | cons d t => rw [allFrom, allFrom, Option.any_some, hc, Option.any_none]

theorem allFrom_blank : allFrom pos before (' ' :: t) = allFrom (pos + 1) none t := by
  rw [allFrom_pass pos rfl, allFrom_behind _ (by decide +kernel)]

theorem allFrom_apostrophe : allFrom pos (some '\'') t = allFrom pos none t :=
  allFrom_behind _ (by decide +kernel)

end Steps

section Lone

variable {before : Option Char} {c : Char} {t : Text} {n : Nat} (pos : Nat)

theorem loneFrom_pass (h : opens before c = false) :
    loneFrom pos before (c :: t) = loneFrom (pos + 1) (some c) t := by
  rw [loneFrom, h, if_neg Bool.false_ne_true]

theorem loneFrom_closed (h : opens before c = true) (hn : close? c t = some n) :
    loneFrom pos before (c :: t) =
      loneFrom (pos + n + 2) (some (closer c)) (t.drop (n + 1)) := by
  rw [loneFrom, if_pos h, hn]

theorem loneFrom_lone (h : opens before '\'' = true) (hn : close? '\'' t = none) :
    loneFrom pos before ('\'' :: t) = pos :: loneFrom (pos + 1) (some '\'') t := by
  rw [loneFrom, if_pos h, hn]
  rfl

end Lone

theorem le_of_mem_loneFrom {pos : Nat} {before : Option Char} {t : Text} :
    ∀ {i : Nat}, i ∈ loneFrom pos before t → pos ≤ i := by
  fun_induction loneFrom pos before t with
  | case1 => simp
  | case2 pos before c t _ n _ ih => intro i hi; have := ih hi; omega
  | case3 pos before t _ _ => intro i hi; simp at hi; omega
  | case4 pos before c t _ _ _ ih =>
    intro i hi
    rcases List.mem_cons.mp hi with rfl | hi
    · exact Nat.le_refl _
    · have := ih hi; omega
  | case5 pos before c t _ ih => intro i hi; have := ih hi; omega

/-- **The way to a lone mark**: the search through `t` comes to the position `k`, past characters
that open nothing, lone apostrophes and whole quotes, and nothing closes the mark there. -/
inductive LoneAt : Option Char → Text → Nat → Prop
  | left {before : Option Char} {t : Text} (hn : close? '‘' t = none) : LoneAt before ('‘' :: t) 0
  | apostrophe {before : Option Char} {t : Text} (ho : opens before '\'' = true)
      (hn : close? '\'' t = none) : LoneAt before ('\'' :: t) 0
  | pass {before : Option Char} {c : Char} {t : Text} {k : Nat} (ho : opens before c = false)
      (h : LoneAt (some c) t k) : LoneAt before (c :: t) (k + 1)
  | lone {before : Option Char} {t : Text} {k : Nat} (ho : opens before '\'' = true)
      (hn : close? '\'' t = none) (h : LoneAt (some '\'') t k) : LoneAt before ('\'' :: t) (k + 1)
  | closed {before : Option Char} {c : Char} {t : Text} {n k : Nat} (ho : opens before c = true)
      (hn : close? c t = some n) (h : LoneAt (some (closer c)) (t.drop (n + 1)) k) :
      LoneAt before (c :: t) (n + 1 + k + 1)

theorem loneAt_of_mem {pos : Nat} {before : Option Char} {t : Text} : ∀ {k : Nat},
    pos + k ∈ loneFrom pos before t → LoneAt before t k := by
  fun_induction loneFrom pos before t with
  | case1 => intro k h; cases h
  | case2 pos before c t ho n hn ih =>
    intro k h
    obtain ⟨k', hk'⟩ := Nat.exists_eq_add_of_le (le_of_mem_loneFrom h)
    obtain rfl : k = n + 1 + k' + 1 := by omega
    exact .closed ho hn (ih (hk' ▸ h))
  | case3 pos before t _ hn =>
    intro k h
    obtain rfl : k = 0 := by simpa using h
    exact .left hn
  | case4 pos before c t ho hn hc ih =>
    intro k h
    obtain rfl := eq_apostrophe_of_opens ho hc
    rcases k with _ | k
    · exact .apostrophe ho hn
    · rcases List.mem_cons.mp h with h | h
      · omega
      · exact .lone ho hn (ih (by rwa [Nat.add_assoc, Nat.add_comm 1]))
  | case5 pos before c t ho ih =>
    intro k h
    obtain ⟨k', hk'⟩ := Nat.exists_eq_add_of_le (le_of_mem_loneFrom h)
    obtain rfl : k = k' + 1 := by omega
    exact .pass (Bool.eq_false_iff.mpr ho) (ih (hk' ▸ h))

/-- A left mark stands there, or an apostrophe with no other behind it. -/
def AloneAt (t : Text) (k : Nat) : Prop :=
  t[k]? = some '‘' ∨ t[k]? = some '\'' ∧ t[k + 1]? ≠ some '\''

theorem aloneAt_drop {t : Text} {n k : Nat} : AloneAt (t.drop n) k ↔ AloneAt t (n + k) := by
  simp only [AloneAt, List.getElem?_drop, Nat.add_assoc]

theorem aloneAt_cons {c : Char} {t : Text} {k : Nat} : AloneAt (c :: t) (k + 1) ↔ AloneAt t k := by
  simp only [AloneAt, List.getElem?_cons_succ]

/-! ### Searches for a closing apostrophe -/

theorem closingApostrophe?_apostrophe (t : Text) :
    closingApostrophe? '\'' ('\'' :: t) = some 0 :=
  closingApostrophe?_mark fun hlead => absurd hlead (by decide)

theorem literalTail?_cons_cons (a b : Char) (more : Text) : literalTail? (a :: b :: more) =
    if a ≠ '\'' ∧ b = '\'' then some 2
    else if a = '\\' ∧ more.head? = some '\'' then some 3 else none := rfl

/-- A literal is read from its own characters. -/
theorem literalTail?_set_of_le {t : Text} {m k : Nat} (h : literalTail? t = some m) (hk : m ≤ k) :
    literalTail? (t.set k ' ') = some m := by
  rcases t with _ | ⟨a, _ | ⟨b, more⟩⟩
  · cases h
  · cases h
  · rw [literalTail?_cons_cons] at h
    split_ifs at h with h₁ h₂
    · obtain rfl := Option.some_inj.mp h
      obtain ⟨k, rfl⟩ := Nat.exists_eq_add_of_le' hk
      rw [List.set_cons_succ, List.set_cons_succ, literalTail?_cons_cons, if_pos h₁]
    · obtain rfl := Option.some_inj.mp h
      obtain ⟨k, rfl⟩ := Nat.exists_eq_add_of_le' hk
      obtain ⟨x, more, rfl⟩ : ∃ x tail, more = x :: tail := by
        cases more with
        | nil => simp at h₂
        | cons x tail => exact ⟨x, tail, rfl⟩
      rw [List.set_cons_succ, List.set_cons_succ, List.set_cons_succ, literalTail?_cons_cons,
        if_neg h₁, if_pos (by simpa using h₂)]

/-- A left mark is no part of the form of a literal. -/
theorem literalTail?_set_left {t : Text} {k : Nat} (hk : t[k]? = some '‘') :
    literalTail? (t.set k ' ') = literalTail? t := by
  rcases t with _ | ⟨a, _ | ⟨b, more⟩⟩
  · rfl
  · rcases k with _ | k <;> rfl
  · rcases k with _ | _ | k
    · obtain rfl : a = '‘' := by simpa using hk
      simp [literalTail?]
    · obtain rfl : b = '‘' := by simpa using hk
      simp [literalTail?]
    · rcases more with _ | ⟨x, more⟩
      · simp at hk
      · rcases k with _ | k
        · obtain rfl : x = '‘' := by simpa using hk
          simp [literalTail?]
        · simp [literalTail?]

/-- A blank in the place of a mark makes no literal. -/
theorem literalTail?_set_eq_none {t : Text} {k : Nat} (hk : AloneAt t k)
    (h : literalTail? t = none) : literalTail? (t.set k ' ') = none := by
  rcases hk with hk | ⟨hk, hnext⟩
  · rw [literalTail?_set_left hk, h]
  · rcases t with _ | ⟨a, _ | ⟨b, more⟩⟩
    · rfl
    · rcases k with _ | k <;> rfl
    · rw [literalTail?_cons_cons] at h
      split_ifs at h with h₁ h₂
      rcases k with _ | _ | k
      · have hb : b ≠ '\'' := by simpa using hnext
        rw [List.set_cons_zero, literalTail?_cons_cons, if_neg fun hx => hb hx.2,
          if_neg fun hx => absurd hx.1 (by decide)]
      · obtain rfl : b = '\'' := by simpa using hk
        obtain rfl : a = '\'' := by simpa using h₁
        rfl
      · have hhead : (more.set k ' ').head? = some '\'' → more.head? = some '\'' := by
          rcases more with _ | ⟨x, more⟩
          · exact id
          · rcases k with _ | k
            · intro hx; simp at hx
            · exact id
        rw [List.set_cons_succ, List.set_cons_succ, literalTail?_cons_cons, if_neg h₁,
          if_neg fun hx => h₂ ⟨hx.1, hhead hx.2⟩]

/-- **A quote closed before a mark stays as it is when the mark gets blank.** -/
theorem closingApostrophe?_set {before : Char} {t : Text} : ∀ {n k : Nat}, AloneAt t k → n < k →
    closingApostrophe? before t = some n → closingApostrophe? before (t.set k ' ') = some n := by
  fun_induction closingApostrophe? before t with
  | case1 => intro n k _ _ h; cases h
  | case2 before t m hm ih =>
    intro _ k hk hn h
    obtain ⟨n, hrest, rfl⟩ := Option.map_eq_some_iff.mp h
    obtain ⟨k, rfl⟩ : ∃ k', k = m + k' + 1 := ⟨k - m - 1, by omega⟩
    obtain ⟨hlead, hm⟩ := Option.ite_none_right_eq_some.mp hm
    rw [List.set_cons_succ,
      closingApostrophe?_literal hlead (literalTail?_set_of_le hm (Nat.le_add_right m k)),
      List.drop_set, if_neg (by omega), Nat.add_sub_cancel_left,
      ih (aloneAt_drop.mpr (aloneAt_cons.mp hk)) (by omega) hrest]
    rfl
  | case3 before t hnone =>
    intro n k hk hn h
    obtain rfl := Option.some_inj.mp h
    obtain ⟨k, rfl⟩ := Nat.exists_eq_add_one_of_ne_zero (Nat.ne_of_gt hn)
    rw [List.set_cons_succ]
    refine closingApostrophe?_mark fun hlead => literalTail?_set_eq_none (aloneAt_cons.mp hk) ?_
    rwa [dif_pos hlead] at hnone
  | case4 before c t hc ih =>
    intro _ k hk hn h
    obtain ⟨n, hrest, rfl⟩ := Option.map_eq_some_iff.mp h
    obtain ⟨k, rfl⟩ := Nat.exists_eq_add_one_of_ne_zero (Nat.ne_of_gt (Nat.zero_lt_of_lt hn))
    rw [List.set_cons_succ, closingApostrophe?_plain hc,
      ih (aloneAt_cons.mp hk) (Nat.lt_of_succ_lt_succ hn) hrest]
    rfl

/-- A search that fails behind a character that leads no literal does not look at it. -/
theorem closingApostrophe?_eq_none_of_not_leads {b b' : Char} {t : Text}
    (hb : leadsLiteral b = false) (h : closingApostrophe? b t = none) :
    closingApostrophe? b' t = none := by
  cases t with
  | nil => rw [closingApostrophe?]
  | cons c t =>
    have hc : c ≠ '\'' := by
      rintro rfl
      rw [closingApostrophe?_mark fun hlead => absurd (hb.symm.trans hlead) (by decide)] at h
      cases h
    rw [closingApostrophe?_plain hc] at h ⊢
    exact h

/-- **A search that fails also fails with a blank in the place of a left mark.** -/
theorem closingApostrophe?_set_left {before : Char} {t : Text} : ∀ {k : Nat}, t[k]? = some '‘' →
    closingApostrophe? before t = none → closingApostrophe? before (t.set k ' ') = none := by
  fun_induction closingApostrophe? before t with
  | case1 => intro k hk; simp at hk
  | case2 before t m hm ih =>
    intro k hk h
    obtain ⟨hlead, hm⟩ := Option.ite_none_right_eq_some.mp hm
    rcases k with _ | k
    · simp at hk
    · rw [List.getElem?_cons_succ] at hk
      have hm' : literalTail? (t.set k ' ') = some m := by rw [literalTail?_set_left hk, hm]
      rw [List.set_cons_succ, closingApostrophe?_literal hlead hm', Option.map_eq_none_iff]
      rw [Option.map_eq_none_iff] at h
      by_cases hlt : k < m
      · rwa [List.drop_set, if_pos hlt]
      · rw [List.drop_set, if_neg hlt]
        refine ih ?_ h
        rw [List.getElem?_drop, Nat.add_sub_cancel' (Nat.not_lt.mp hlt)]
        exact hk
  | case3 before t hnone => intro k _ h; cases h
  | case4 before c t hc ih =>
    intro k hk h
    rw [Option.map_eq_none_iff] at h
    rcases k with _ | k
    · obtain rfl : c = '‘' := by simpa using hk
      rw [List.set_cons_zero, closingApostrophe?_plain (by decide), Option.map_eq_none_iff]
      exact closingApostrophe?_eq_none_of_not_leads (by decide) h
    · rw [List.set_cons_succ, closingApostrophe?_plain hc, Option.map_eq_none_iff]
      exact ih (by simpa using hk) h

/-! ### Two searches around a literal -/

/-- The search from the inside of a literal comes to the last apostrophe of it. -/
theorem exists_closingApostrophe?_inside {t : Text} {m : Nat} (h : literalTail? t = some m) :
    ∃ (last : Char) (more : Text), t.length = more.length + m ∧ 2 ≤ m ∧
      (∀ n, t.drop (m + n) = more.drop n) ∧
      closingApostrophe? '\'' t =
        (closingApostrophe? last ('\'' :: more)).map (· + (m - 1)) := by
  rcases t with _ | ⟨a, _ | ⟨b, more⟩⟩
  · cases h
  · cases h
  · rw [literalTail?_cons_cons] at h
    split_ifs at h with h₁ h₂
    · obtain rfl := Option.some_inj.mp h
      obtain ⟨ha, rfl⟩ := h₁
      refine ⟨a, more, rfl, Nat.le_refl _, fun n => by simp [Nat.add_comm 2 n], ?_⟩
      rw [closingApostrophe?_plain ha]
    · obtain rfl := Option.some_inj.mp h
      obtain ⟨rfl, hhead⟩ := h₂
      obtain ⟨more, rfl⟩ : ∃ tail, more = '\'' :: tail := by
        cases more with
        | nil => simp at hhead
        | cons x tail => exact ⟨tail, by simpa using hhead⟩
      have hb : b ≠ '\'' := fun hb => h₁ ⟨by decide, hb⟩
      refine ⟨b, more, rfl, by omega, fun n => by simp [Nat.add_comm 3 n], ?_⟩
      rw [closingApostrophe?_plain (by decide), closingApostrophe?_plain hb, Option.map_map]
      rfl

/-- **Of two searches around a literal one succeeds**, the one that starts inside it or the one that
starts behind it; and where one fails, it would fail from behind the mark found by the other, too.

The two take turns: behind the literal of the one, the other may stand in front of the next. -/
theorem closingApostrophe?_around (N : Nat) : ∀ {t : Text} {m : Nat}, t.length ≤ N →
    literalTail? t = some m →
      (closingApostrophe? '\'' (t.drop m) = none → ∃ n, closingApostrophe? '\'' t = some n ∧
        closingApostrophe? '\'' (t.drop (n + 1)) = none) ∧
      (closingApostrophe? '\'' t = none → ∃ n, closingApostrophe? '\'' (t.drop m) = some n ∧
        closingApostrophe? '\'' (t.drop (m + n + 1)) = none) := by
  induction N with
  | zero =>
    intro t m hlen h
    obtain ⟨last, more, hlength, hm, -⟩ := exists_closingApostrophe?_inside h
    omega
  | succ N ih =>
    intro t m hlen h
    obtain ⟨last, more, hlength, hm, hdrop, hinside⟩ := exists_closingApostrophe?_inside h
    have hbehind : t.drop m = more := hdrop 0
    rw [hbehind, hinside]
    by_cases hlit : leadsLiteral last = true ∧ ∃ m', literalTail? more = some m'
    · obtain ⟨hlead, m', hm'⟩ := hlit
      obtain ⟨hin, hout⟩ := ih (by omega) hm'
      rw [closingApostrophe?_literal hlead hm']
      constructor
      · intro hnone
        obtain ⟨n, hn, hrest⟩ := hout hnone
        refine ⟨n + (m' + 1) + (m - 1), by rw [hn]; rfl, ?_⟩
        rw [show n + (m' + 1) + (m - 1) + 1 = m + (m' + n + 1) by omega, hdrop]
        exact hrest
      · intro hnone
        obtain ⟨n, hn, hrest⟩ := hin (by simpa using hnone)
        refine ⟨n, hn, ?_⟩
        rw [Nat.add_assoc, hdrop]
        exact hrest
    · have hmark : closingApostrophe? last ('\'' :: more) = some 0 := by
        refine closingApostrophe?_mark fun hlead => ?_
        rw [Option.eq_none_iff_forall_ne_some]
        exact fun m' hm' => hlit ⟨hlead, m', hm'⟩
      rw [hmark]
      refine ⟨fun hnone => ⟨0 + (m - 1), rfl, ?_⟩, fun hnone => by cases hnone⟩
      rw [show 0 + (m - 1) + 1 = m + 0 by omega, hdrop]
      exact hnone

theorem not_leads_of_isAlphanumeric {c : Char} (h : Text.isAlphanumeric c = true) :
    leadsLiteral c = false := by
  rw [← Bool.not_eq_true]
  intro hlead
  have hmem : c ∈ "<(,[\x7b= ".toList := by simpa [leadsLiteral] using hlead
  have hnone : ∀ x ∈ "<(,[\x7b= ".toList, Text.isAlphanumeric x = false :=
    Text.forall_mem_of_all (by decide +kernel)
  rw [hnone c hmem] at h
  cases h

/-- A search that fails passes over an apostrophe as over a literal. So the apostrophe has its mark,
and the search would fail from behind that, too. -/
theorem exists_behind_apostrophe {b : Char} {t : Text}
    (h : closingApostrophe? b ('\'' :: t) = none) : ∃ n, closingApostrophe? '\'' t = some n ∧
      closingApostrophe? '\'' (t.drop (n + 1)) = none := by
  by_cases hlit : leadsLiteral b = true ∧ ∃ m, literalTail? t = some m
  · obtain ⟨hlead, m, hm⟩ := hlit
    rw [closingApostrophe?_literal hlead hm, Option.map_eq_none_iff] at h
    exact (closingApostrophe?_around t.length (Nat.le_refl _) hm).1 h
  · rw [closingApostrophe?_mark fun hlead => Option.eq_none_iff_forall_ne_some.mpr
      fun m hm => hlit ⟨hlead, m, hm⟩] at h
    cases h

/-- **Behind a search that fails there is no lone apostrophe**, up to the next left mark. -/
theorem LoneAt.left_mem_take {before : Option Char} {t : Text} {k : Nat} (h : LoneAt before t k) :
    ∀ {b : Char}, before = some b → closingApostrophe? b t = none → t[k]? = some '\'' →
      '‘' ∈ t.take k := by
  induction h with
  | left hn => intro b _ _ hk; simp at hk
  | apostrophe ho hn =>
    -- the search that fails shows that this apostrophe is closed
    intro b _ hnone _
    obtain ⟨n, hclosed, -⟩ := exists_behind_apostrophe hnone
    simp [close?, hclosed] at hn
  | @pass before c t k ho h ih =>
    rintro b rfl hnone hk
    have hc : c ≠ '\'' := by
      rintro rfl
      have hb : leadsLiteral b = false := not_leads_of_isAlphanumeric (by simpa [opens] using ho)
      rw [closingApostrophe?_mark fun hlead => absurd (hb.symm.trans hlead) (by decide)] at hnone
      cases hnone
    rw [closingApostrophe?_plain hc, Option.map_eq_none_iff] at hnone
    rw [List.take_succ_cons]
    exact List.mem_cons_of_mem _ (ih rfl hnone (by simpa using hk))
  | lone ho hn h ih =>
    intro b _ hnone _
    obtain ⟨n, hclosed, -⟩ := exists_behind_apostrophe hnone
    simp [close?, hclosed] at hn
  | @closed before c t n k ho hn h ih =>
    intro b _ hnone hk
    rw [List.take_succ_cons, List.mem_cons]
    by_cases hc : c = '‘'
    · exact Or.inl hc.symm
    · obtain rfl := eq_apostrophe_of_opens ho hc
      obtain ⟨n', hn', hrest⟩ := exists_behind_apostrophe hnone
      obtain rfl : n' = n := by simpa [close?, hn'] using hn
      rw [List.getElem?_cons_succ, ← List.getElem?_drop] at hk
      rw [List.take_add]
      exact Or.inr (List.mem_append_right _ (ih rfl hrest hk))

/-! ### A blank in the place of a lone mark -/

theorem close?_set {c : Char} {t : Text} {n k : Nat} (hk : AloneAt t k) (hn : n < k)
    (h : close? c t = some n) : close? c (t.set k ' ') = some n := by
  unfold close? at h ⊢
  split_ifs at h ⊢ with hc
  · obtain ⟨hlt, hmark, hfirst⟩ := List.findIdx?_eq_some_iff_getElem.mp h
    refine List.findIdx?_eq_some_iff_getElem.mpr ⟨by simpa using hlt, ?_, fun j hj => ?_⟩
    · rw [List.getElem_set_ne (Nat.ne_of_gt hn)]
      exact hmark
    · rw [List.getElem_set_ne (by omega)]
      exact hfirst j hj
  · exact closingApostrophe?_set hk hn h

namespace LoneAt

variable {before : Option Char} {t : Text} {k : Nat}

/-- A lone mark stands alone. -/
theorem aloneAt (h : LoneAt before t k) : AloneAt t k := by
  induction h with
  | left hn => exact Or.inl rfl
  | @apostrophe before t ho hn =>
    refine Or.inr ⟨rfl, fun hnext => ?_⟩
    obtain ⟨t, rfl⟩ : ∃ tail, t = '\'' :: tail := by
      cases t with
      | nil => simp at hnext
      | cons x tail => exact ⟨tail, by simpa using hnext⟩
    simp [close?, closingApostrophe?_apostrophe] at hn
  | pass ho h ih => exact aloneAt_cons.mpr ih
  | lone ho hn h ih => exact aloneAt_cons.mpr ih
  | closed ho hn h ih => exact aloneAt_cons.mpr (aloneAt_drop.mp ih)

/-- **The quotes behind a lone apostrophe are quotes of the text.** -/
theorem isSuffix_allFrom (h : LoneAt before t k) : ∀ pos : Nat, t[k]? = some '\'' →
    allFrom (pos + k + 1) none (t.drop (k + 1)) <:+ allFrom pos before t := by
  have hsucc : ∀ pos k : Nat, pos + (k + 1) + 1 = pos + 1 + k + 1 := by omega
  induction h with
  | left hn => intro pos hk; simp at hk
  | apostrophe ho hn =>
    intro pos _
    rw [allFrom_lone pos ho hn, allFrom_apostrophe]
    exact List.suffix_refl _
  | @pass before c t k ho h ih =>
    intro pos hk
    rw [allFrom_pass pos ho, List.drop_succ_cons, hsucc]
    exact ih (pos + 1) (by simpa using hk)
  | @lone before t k ho hn h ih =>
    intro pos hk
    rw [allFrom_lone pos ho hn, List.drop_succ_cons, hsucc]
    exact ih (pos + 1) (by simpa using hk)
  | @closed before c t n k ho hn h ih =>
    intro pos hk
    rw [List.getElem?_cons_succ, ← List.getElem?_drop] at hk
    have hsuffix := ih (pos + n + 2) hk
    rw [List.drop_drop, show pos + n + 2 + k + 1 = pos + (n + 1 + k + 1) + 1 by omega,
      ← Nat.add_assoc] at hsuffix
    rw [allFrom_closed pos ho hn, List.drop_succ_cons]
    exact hsuffix.trans (List.suffix_append _ _)

section Closed

variable {c : Char} {n : Nat} (ho : opens before c = true) (hn : close? c t = some n)
  (hk : AloneAt t (n + 1 + k)) (pos : Nat)
include ho hn hk

/-- A quote before the mark is found with the blank, too. -/
theorem allFrom_set_closed : allFrom pos before ((c :: t).set (n + 1 + k + 1) ' ') =
    ofLength (pos + 1) n t ++
      allFrom (pos + n + 2) (some (closer c)) ((t.drop (n + 1)).set k ' ') := by
  have htake : (t.set (n + 1 + k) ' ').take n = t.take n := List.take_set_of_le (by omega)
  rw [List.set_cons_succ, allFrom_closed pos ho (close?_set hk (by omega) hn), List.drop_set,
    if_neg (by omega), Nat.add_sub_cancel_left, ofLength, ofLength, htake]

theorem loneFrom_set_closed : loneFrom pos before ((c :: t).set (n + 1 + k + 1) ' ') =
    loneFrom (pos + n + 2) (some (closer c)) ((t.drop (n + 1)).set k ' ') := by
  rw [List.set_cons_succ, loneFrom_closed pos ho (close?_set hk (by omega) hn), List.drop_set,
    if_neg (by omega), Nat.add_sub_cancel_left]

end Closed

/-- **A lone left mark hides the quotes behind it**, and no others. -/
theorem allFrom_set_left (h : LoneAt before t k) : ∀ pos : Nat, t[k]? = some '‘' →
    allFrom pos before (t.set k ' ') =
      allFrom pos before t ++ allFrom (pos + k + 1) none (t.drop (k + 1)) := by
  have hsucc : ∀ pos k : Nat, pos + (k + 1) + 1 = pos + 1 + k + 1 := by omega
  induction h with
  | left hn =>
    intro pos _
    rw [allFrom_left pos hn, List.set_cons_zero, allFrom_blank]
    rfl
  | apostrophe ho hn => intro pos hk; simp at hk
  | @pass before c t k ho h ih =>
    intro pos hk
    rw [List.set_cons_succ, allFrom_pass pos ho, allFrom_pass pos ho, List.drop_succ_cons, hsucc]
    exact ih (pos + 1) (by simpa using hk)
  | @lone before t k ho hn h ih =>
    intro pos hk
    have hk' : t[k]? = some '‘' := by simpa using hk
    have hn' : close? '\'' (t.set k ' ') = none := closingApostrophe?_set_left hk' hn
    rw [List.set_cons_succ, allFrom_lone pos ho hn, allFrom_lone pos ho hn', List.drop_succ_cons,
      hsucc]
    exact ih (pos + 1) hk'
  | @closed before c t n k ho hn h ih =>
    intro pos hk
    rw [List.getElem?_cons_succ, ← List.getElem?_drop] at hk
    rw [allFrom_set_closed ho hn (aloneAt_drop.mp h.aloneAt), allFrom_closed pos ho hn,
      ih (pos + n + 2) hk, List.append_assoc, List.drop_drop, List.drop_succ_cons,
      show pos + n + 2 + k + 1 = pos + (n + 1 + k + 1) + 1 by omega]
    congr 4

/-- **A lone apostrophe may get blank iff the lone marks before it stay lone.** At the first one
that does not, a quote starts that the text does not have. -/
theorem allFrom_set_apostrophe (h : LoneAt before t k) : ∀ pos : Nat, t[k]? = some '\'' →
    (allFrom pos before (t.set k ' ') = allFrom pos before t ↔
      ∀ j ∈ loneFrom pos before t, j < pos + k → j ∈ loneFrom pos before (t.set k ' ')) := by
  induction h with
  | left hn => intro pos hk; simp at hk
  | apostrophe ho hn =>
    intro pos _
    rw [List.set_cons_zero, allFrom_blank, allFrom_lone pos ho hn, allFrom_apostrophe]
    refine iff_of_true rfl fun j hj hlt => ?_
    have hle := le_of_mem_loneFrom hj
    omega
  | @pass before c t k ho h ih =>
    intro pos hk
    rw [List.set_cons_succ, allFrom_pass pos ho, allFrom_pass pos ho, loneFrom_pass pos ho,
      loneFrom_pass pos ho, ← Nat.add_assoc, Nat.add_right_comm pos k 1]
    exact ih (pos + 1) (by simpa using hk)
  | @lone before t k ho hn h ih =>
    intro pos hk
    have hk' : t[k]? = some '\'' := by simpa using hk
    rw [List.set_cons_succ, allFrom_lone pos ho hn, loneFrom_lone pos ho hn]
    cases hn' : close? '\'' (t.set k ' ') with
    | none =>
      rw [allFrom_lone pos ho hn', loneFrom_lone pos ho hn', ih (pos + 1) hk']
      have hpos : ∀ {j : Nat} {u : Text}, j ∈ loneFrom (pos + 1) (some '\'') u → j ≠ pos :=
        fun hj => Nat.ne_of_gt (le_of_mem_loneFrom hj)
      constructor
      · intro hall j hj hlt
        rcases List.mem_cons.mp hj with rfl | hj
        · exact List.mem_cons_self
        · exact List.mem_cons_of_mem _ (hall j hj (by omega))
      · intro hall j hj hlt
        exact (List.mem_cons.mp (hall j (List.mem_cons_of_mem _ hj) (by omega))).resolve_left
          (hpos hj)
    | some n =>
      -- the mark now closes a quote, and the text has none that starts here
      have hpos : n ≠ 0 := by
        rintro rfl
        have hmark : (t.set k ' ')[0]? = some '\'' := getElem?_of_closingApostrophe? hn'
        rcases t with _ | ⟨x, t⟩
        · cases hmark
        · rcases k with _ | k
          · simp at hmark
          · obtain rfl : x = '\'' := by simpa using hmark
            simp [close?, closingApostrophe?_apostrophe] at hn
      refine iff_of_false (fun heq => ?_) fun hall => ?_
      · rw [allFrom_closed pos ho hn', ofLength, if_neg hpos] at heq
        have hmem : (⟨pos + 1, (t.set k ' ').take n⟩ : Quote) ∈ allFrom (pos + 1) (some '\'') t :=
          heq ▸ List.mem_cons_self
        exact Nat.lt_irrefl _ ((listed_allFrom _ _ _).standsIn _ hmem).bounds.1
      · have hmem := hall pos List.mem_cons_self (by omega)
        rw [loneFrom_closed pos ho hn'] at hmem
        have hle := le_of_mem_loneFrom hmem
        omega
  | @closed before c t n k ho hn h ih =>
    intro pos hk
    rw [List.getElem?_cons_succ, ← List.getElem?_drop] at hk
    have hk' := aloneAt_drop.mp h.aloneAt
    rw [allFrom_set_closed ho hn hk', loneFrom_set_closed ho hn hk', allFrom_closed pos ho hn,
      loneFrom_closed pos ho hn, List.append_cancel_left_eq, ih (pos + n + 2) hk,
      show pos + n + 2 + k = pos + (n + 1 + k + 1) by omega]

/-- **The first lone mark of a text without left marks is the only one.** -/
theorem le_of_left_not_mem (h : LoneAt before t k) : ∀ {pos j : Nat}, t[k]? = some '\'' →
    '‘' ∉ t.take k → j ∈ loneFrom pos before t → pos + k ≤ j := by
  induction h with
  | left hn => intro pos j hk; simp at hk
  | apostrophe ho hn => intro pos j _ _ hj; exact le_of_mem_loneFrom hj
  | @pass before c t k ho h ih =>
    intro pos j hk hleft hj
    rw [loneFrom_pass pos ho] at hj
    rw [List.take_succ_cons] at hleft
    have hle := ih (by simpa using hk) (fun hmem => hleft (List.mem_cons_of_mem _ hmem)) hj
    omega
  | @lone before t k ho hn h ih =>
    intro pos j hk hleft _
    refine absurd (h.left_mem_take rfl hn (by simpa using hk)) fun hmem => hleft ?_
    rw [List.take_succ_cons]
    exact List.mem_cons_of_mem _ hmem
  | @closed before c t n k ho hn h ih =>
    intro pos j hk hleft hj
    rw [List.getElem?_cons_succ, ← List.getElem?_drop] at hk
    rw [loneFrom_closed pos ho hn] at hj
    rw [List.take_succ_cons, List.take_add] at hleft
    have hle := ih hk
      (fun hmem => hleft (List.mem_cons_of_mem _ (List.mem_append_right _ hmem))) hj
    omega

end LoneAt

end Quote

/-- **What a lone mark hides.** A space in the place of a lone left mark brings back the quotes
behind it and changes nothing else, so it changes nothing iff there are none. A lone apostrophe
hides no quote behind it, and a space in its place changes nothing iff the lone marks before it stay
lone; so it is where no left mark stands before it. -/
theorem lone_mark_hides (t : Text) (i : Nat) (hi : i ∈ Quote.lones t) :
    (t[i]? = some '‘' ∧
      Quote.all (t.set i ' ') =
        Quote.all t ++ Quote.allFrom (i + 1) none (t.drop (i + 1)) ∧
      (Quote.all (t.set i ' ') = Quote.all t ↔
        Quote.allFrom (i + 1) none (t.drop (i + 1)) = [])) ∨
    (t[i]? = some '\'' ∧
      Quote.allFrom (i + 1) none (t.drop (i + 1)) <:+ Quote.all t ∧
      (Quote.all (t.set i ' ') = Quote.all t ↔
        ∀ j ∈ Quote.lones t, j < i → j ∈ Quote.lones (t.set i ' ')) ∧
      ('‘' ∉ t.take i → Quote.all (t.set i ' ') = Quote.all t)) := by
  have hmem : 0 + i ∈ Quote.loneFrom 0 none t := by rwa [Nat.zero_add]
  have hlone := Quote.loneAt_of_mem hmem
  rcases hlone.aloneAt with hmark | ⟨hmark, -⟩
  · have hset := hlone.allFrom_set_left 0 hmark
    rw [Nat.zero_add] at hset
    refine Or.inl ⟨hmark, hset, ?_⟩
    rw [Quote.all, Quote.all, hset, List.append_right_eq_self]
  · have hsuffix := hlone.isSuffix_allFrom 0 hmark
    have hiff := hlone.allFrom_set_apostrophe 0 hmark
    rw [Nat.zero_add] at hsuffix hiff
    refine Or.inr ⟨hmark, hsuffix, hiff, fun hleft => hiff.mpr fun j hj hlt => ?_⟩
    have hle := hlone.le_of_left_not_mem hmark hleft hj
    omega

/-- The left mark is closed nowhere, and the quote between apostrophes behind it is not found. -/
theorem lone_mark_hides_vector :
    let line := "error: ‘std::vector<int and 'int'".toList
    7 ∈ Quote.lones line ∧ Quote.all (line.set 7 ' ') = [⟨29, "int".toList⟩] ∧
      Quote.all line = [] := by
  intro line
  have hlone : 7 ∈ Quote.lones line := by decide +kernel
  have hall : Quote.all line = [] := by decide +kernel
  have hrest : Quote.allFrom 8 none (line.drop 8) = [⟨29, "int".toList⟩] := by decide +kernel
  refine ⟨hlone, ?_, hall⟩
  rcases lone_mark_hides line 7 hlone with ⟨-, hset, -⟩ | ⟨hmark, -⟩
  · rw [hset, hall, hrest]
    rfl
  · exact absurd hmark (by decide +kernel)

/-- The quotes with a space in the place of the lone mark are not those of the line: for a left
mark, and for an apostrophe that ends what an earlier one took for a literal. -/
theorem blank_for_lone_mark_changes_quotes :
    (7 ∈ Quote.lones "error: ‘std::vector<int and 'int'".toList ∧
      Quote.all "error: ‘std::vector<int and 'int'".toList = [] ∧
      Quote.all "error:  std::vector<int and 'int'".toList = [⟨29, "int".toList⟩]) ∧
    5 ∈ Quote.lones "'‘<'’'".toList ∧ Quote.all "'‘<'’'".toList = [⟨2, "<'".toList⟩] ∧
      Quote.all "'‘<'’ ".toList = [⟨1, "‘<".toList⟩] :=
  ⟨⟨by decide +kernel, by decide +kernel, by decide +kernel⟩, by decide +kernel, by decide +kernel,
    by decide +kernel⟩

end DiagLayout
