import DiagLayout.Proofs.CleanCuts
import DiagLayout.Proofs.Substitutions

/-!
# What is marked as a spelling

A character is marked because an occurrence of a spelling covers it, and an occurrence starts with
one of a few words (`Spelling.starts`).

* `exists_start_of_spelled`: in front of a marked character a word starts, and all between is
  marked;
* `Source.ofText_of_forall_not_isPrefix`: where no word starts, every character plays its own part;
* `Source.kind?_opening`: the opening of a group of substitutions ends in a space.
-/

namespace DiagLayout

theorem Text.exists_isPrefix_of_afterAny? {words : List Text} {t rest : Text}
    (h : Text.afterAny? words t = some rest) : ∃ w ∈ words, t = w ++ rest := by
  obtain ⟨w, hw, hrest⟩ := List.exists_of_findSome?_eq_some h
  exact ⟨w, hw, Text.eq_append_of_after? hrest⟩

namespace Spelling

/-- The words that spellings start with. -/
def starts : List Text :=
  ["'".toList, "operator".toList, "->".toList, "<lambda(".toList, "\x7banonymous".toList,
   "<anonymous".toList, "<unnamed".toList, "(".toList]

/-- **A spelling starts with one of the words.** -/
theorem exists_start_of_rest? {s : Spelling} {before : Option Char} {t rest : Text}
    (h : s.rest? before t = some rest) : ∃ w ∈ starts, w <+: t := by
  cases s with
  | charLiteral =>
    refine ⟨"'".toList, by simp [starts], ?_⟩
    change afterCharLiteral? t = some rest at h
    unfold afterCharLiteral? at h
    split at h
    · exact ⟨_, rfl⟩
    · exact ⟨_, rfl⟩
    · cases h
  | operatorName =>
    obtain ⟨r, hr, -⟩ := Option.bind_eq_some_iff.mp h
    exact ⟨_, by simp [starts], r, (Text.eq_append_of_after? hr).symm⟩
  | arrow =>
    obtain ⟨r, hr, -⟩ := Option.map_eq_some_iff.mp h
    exact ⟨_, by simp [starts], r, (Text.eq_append_of_after? hr).symm⟩
  | lambdaLabel =>
    obtain ⟨r, hr, -⟩ := Option.bind_eq_some_iff.mp h
    exact ⟨_, by simp [starts], r, (Text.eq_append_of_after? hr).symm⟩
  | anonymousLabel =>
    change afterAnonymousLabel? t = some rest at h
    unfold afterAnonymousLabel? at h
    split at h
    · next r hr =>
      exact ⟨"\x7banonymous".toList, by simp [starts], '\x7d' :: r,
        (Text.eq_append_of_after? hr).symm⟩
    · obtain ⟨r, hr, h⟩ := Option.bind_eq_some_iff.mp h
      obtain ⟨r', hr', -⟩ := Option.bind_eq_some_iff.mp h
      obtain ⟨w, hw, rfl⟩ := Text.exists_isPrefix_of_afterAny? hr'
      refine ⟨'<' :: w, ?_, r', (Text.eq_append_of_after? hr).symm⟩
      simp only [anonymousWords, List.mem_cons, List.not_mem_nil, or_false] at hw
      rcases hw with rfl | rfl
      · simp [starts]
      · simp [starts]
  | placeLabel =>
    refine ⟨"(".toList, by simp [starts], ?_⟩
    change afterPlaceLabel? t = some rest at h
    unfold afterPlaceLabel? at h
    split at h
    · next r hr =>
      obtain ⟨r', hr', -⟩ := Option.bind_eq_some_iff.mp hr
      exact ⟨r', (Text.eq_append_of_after? hr').symm⟩
    · exact ⟨"anonymous namespace)".toList ++ rest, (Text.eq_append_of_after? h).symm⟩

/-- Before a character that is marked a word starts, unless the occurrence was begun before the
text, and all between is marked. -/
theorem exists_start_of_coveredFrom (s : Spelling) {t : Text} : ∀ {left x : Nat}
    {before : Option Char}, (s.coveredFrom left before t)[x]? = some true →
      x < left ∨ ∃ p ≤ x, (∃ w ∈ starts, w <+: t.drop p) ∧
        ∀ y, p ≤ y → y ≤ x → (s.coveredFrom left before t)[y]? = some true := by
  induction t with
  | nil =>
    intro left x before h
    rw [List.getElem?_eq_none (by simp [length_coveredFrom])] at h
    cases h
  | cons c t ih =>
    intro left x before h
    -- a word in the rest, one character further on
    have hbehind : ∀ {m y : Nat} {first : Bool}, (∃ p ≤ y, (∃ w ∈ starts, w <+: t.drop p) ∧
        ∀ z, p ≤ z → z ≤ y → (s.coveredFrom m (some c) t)[z]? = some true) →
        ∃ p ≤ y + 1, (∃ w ∈ starts, w <+: (c :: t).drop p) ∧
          ∀ z, p ≤ z → z ≤ y + 1 → (first :: s.coveredFrom m (some c) t)[z]? = some true := by
      rintro m y first ⟨p, hp, hword, hmarked⟩
      refine ⟨p + 1, by omega, hword, fun z hz hz' => ?_⟩
      obtain ⟨z, rfl⟩ : ∃ n, z = n + 1 := ⟨z - 1, by omega⟩
      exact hmarked z (by omega) (by omega)
    rcases left with _ | left
    · right
      by_cases hstart : ∃ n, s.length? before (c :: t) = some (n + 1)
      · obtain ⟨n, hn⟩ := hstart
        obtain ⟨rest, hrest, -⟩ := Option.map_eq_some_iff.mp hn
        rw [coveredFrom, hn] at h ⊢
        simp only at h ⊢
        rcases x with _ | x
        · refine ⟨0, Nat.le_refl 0, exists_start_of_rest? hrest, fun y _ hy => ?_⟩
          rw [Nat.le_zero.mp hy]
          rfl
        · rw [List.getElem?_cons_succ] at h
          rcases ih h with hx | hx
          · refine ⟨0, Nat.zero_le _, exists_start_of_rest? hrest, fun y _ hy => ?_⟩
            have hlen : x < t.length := by
              obtain ⟨hlt, -⟩ := List.getElem?_eq_some_iff.mp h
              rwa [length_coveredFrom] at hlt
            have hleft : (s.coveredFrom (n + 1) before (c :: t))[y]? = some true :=
              s.coveredFrom_left (by omega) (by rw [List.length_cons]; omega)
            exact hleft
          · exact hbehind hx
      · have hnone : s.coveredFrom 0 before (c :: t) = false :: s.coveredFrom 0 (some c) t := by
          rw [coveredFrom]
          split
          · next n hn => exact absurd ⟨n, hn⟩ hstart
          · rfl
        rw [hnone] at h ⊢
        rcases x with _ | x
        · cases h
        · rcases ih (by simpa using h) with hx | hx
          · omega
          · exact hbehind hx
    · rw [coveredFrom] at h ⊢
      rcases x with _ | x
      · exact Or.inl (Nat.succ_pos left)
      · rcases ih (by simpa using h) with hx | hx
        · exact Or.inl (by omega)
        · exact Or.inr (hbehind hx)

end Spelling

/-- A mark is set by one of the spellings. -/
theorem exists_covered_of_spelled {t : Text} {x : Nat} (h : (spelled t)[x]? = some true) :
    ∃ s ∈ Spelling.all, (s.covered t)[x]? = some true := by
  -- a mark is there from the beginning, or set on the way
  have hmarks : ∀ (l : List Spelling) (marks : List Bool),
      (l.foldl (fun marks s => List.zipWith or marks (s.covered t)) marks)[x]? = some true →
        marks[x]? = some true ∨ ∃ s ∈ l, (s.covered t)[x]? = some true := by
    intro l
    induction l with
    | nil => exact fun marks hx => Or.inl hx
    | cons s l ih =>
      intro marks hx
      rw [List.foldl_cons] at hx
      rcases ih _ hx with hx | ⟨s', hs', hx⟩
      · rw [List.getElem?_zipWith] at hx
        cases hm : marks[x]? with
        | none => simp [hm] at hx
        | some b =>
          cases hc : (s.covered t)[x]? with
          | none => simp [hm, hc] at hx
          | some b' =>
            simp only [hm, hc, Option.some.injEq, Bool.or_eq_true] at hx
            rcases hx with rfl | rfl
            · exact Or.inl rfl
            · exact Or.inr ⟨s, List.mem_cons_self, hc⟩
      · exact Or.inr ⟨s', List.mem_cons_of_mem _ hs', hx⟩
  rcases hmarks Spelling.all _ h with hx | hx
  · rw [List.getElem?_map] at hx
    cases ht : t[x]? <;> simp [ht] at hx
  · exact hx

/-- **In front of a marked character a spelling starts**, and all between is marked. -/
theorem exists_start_of_spelled {t : Text} {x : Nat} (h : (spelled t)[x]? = some true) :
    ∃ p ≤ x, (∃ w ∈ Spelling.starts, w <+: t.drop p) ∧
      ∀ y, p ≤ y → y ≤ x → (spelled t)[y]? = some true := by
  obtain ⟨s, hs, hx⟩ := exists_covered_of_spelled h
  rcases s.exists_start_of_coveredFrom hx with hlt | ⟨p, hp, hword, hmarked⟩
  · omega
  · exact ⟨p, hp, hword, fun y hy hy' => spelled_of_covered hs (hmarked y hy hy')⟩

namespace Source

theorem getElem?_ofText {t : Text} {x : Nat} {c : Char} {marked : Bool} (hc : t[x]? = some c)
    (hm : (spelled t)[x]? = some marked) :
    (ofText t)[x]? = some ⟨c, if marked then .symbol else baseClass c⟩ := by
  rw [ofText, List.getElem?_zipWith, hc, hm]

theorem exists_spelled {t : Text} {x : Nat} (hx : x < t.length) :
    ∃ marked, (spelled t)[x]? = some marked :=
  ⟨_, List.getElem?_eq_getElem (by rwa [length_spelled])⟩

/-- A text in which nothing is marked. -/
theorem ofText_of_not_spelled {t : Text} (h : ∀ x : Nat, (spelled t)[x]? ≠ some true) :
    ofText t = t.map fun c => ⟨c, baseClass c⟩ := by
  refine List.ext_getElem? fun x => ?_
  rw [List.getElem?_map]
  cases hc : t[x]? with
  | none =>
    rw [List.getElem?_eq_none (by simpa using List.getElem?_eq_none_iff.mp hc)]
    rfl
  | some c =>
    obtain ⟨marked, hm⟩ := exists_spelled (List.getElem?_eq_some_iff.mp hc).1
    rw [getElem?_ofText hc hm]
    cases marked with
    | false => rfl
    | true => exact absurd hm (h x)

/-- A text in which no spelling starts. -/
theorem ofText_of_forall_not_isPrefix {t : Text}
    (h : ∀ w ∈ Spelling.starts, ∀ p, ¬ w <+: t.drop p) :
    ofText t = t.map fun c => ⟨c, baseClass c⟩ := by
  refine ofText_of_not_spelled fun x hm => ?_
  obtain ⟨p, -, ⟨w, hw, hprefix⟩, -⟩ := exists_start_of_spelled hm
  exact h w hw p hprefix

/-- **The opening of a group of substitutions ends in a space**: no spelling starts in it, and none
that starts before it goes on over an opener. -/
theorem kind?_opening {t : Text} {p : Nat} (hopener : (ofText t).kind? p = some .opener)
    (h : Text.startsWith (t.drop p) Dialect.withOpening = true) :
    (ofText t).kind? (p + 5 : Nat) = some .space := by
  obtain ⟨rest, hrest⟩ := Option.isSome_iff_exists.mp h
  have htext : t.drop p = Dialect.withOpening ++ rest := Text.eq_append_of_after? hrest
  have hat : ∀ n, t[p + n]? = (Dialect.withOpening ++ rest)[n]? := by
    intro n
    rw [← htext, List.getElem?_drop]
  have hspace : t[p + 5]? = some ' ' := hat 5
  obtain ⟨marked, hm⟩ := exists_spelled (List.getElem?_eq_some_iff.mp hspace).1
  cases marked with
  | false =>
    unfold kind?
    rw [if_neg (by omega), Int.toNat_natCast, getElem?_ofText hspace hm]
    rfl
  | true =>
    obtain ⟨q, hq, ⟨w, hw, hprefix⟩, hmarked⟩ := exists_start_of_spelled hm
    by_cases hqp : q ≤ p
    · -- then the opener would be marked too
      have hbracket : t[p]? = some '[' := hat 0
      unfold kind? at hopener
      rw [if_neg (by omega), Int.toNat_natCast,
        getElem?_ofText hbracket (hmarked p hqp (by omega))] at hopener
      cases hopener
    · -- the opening has none of the words in it
      obtain ⟨n, rfl⟩ : ∃ n, q = p + n := ⟨q - p, by omega⟩
      have hn : n < Dialect.withOpening.length := show n < 6 by omega
      have hwords : ∀ w ∈ Spelling.starts, ∀ n < Dialect.withOpening.length, 0 < n →
          w ≠ [] ∧ w.head? ≠ Dialect.withOpening[n]? := by decide
      obtain ⟨hne, hnot⟩ := hwords w hw n hn (by omega)
      obtain ⟨more, hmore⟩ := hprefix
      have hhead : (w ++ more).head? = (Dialect.withOpening ++ rest)[n]? := by
        rw [hmore, List.head?_drop, hat]
      rw [List.head?_append_of_ne_nil _ hne, List.getElem?_append_left hn] at hhead
      exact absurd hhead hnot

end Source

end DiagLayout
