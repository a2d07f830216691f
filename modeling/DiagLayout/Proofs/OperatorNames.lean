import DiagLayout.Proofs.BracketLanguage
import DiagLayout.Proofs.Spellings
import DiagLayout.Proofs.TokenPartition

/-!
# Operator names and arrows

The brackets and commas in the name of an operator, and the bracket of an arrow, belong to symbols,
whatever stands in front of them and behind. Occurrences of a spelling are found from left to right
without overlap, so two things could go wrong.

* An occurrence found earlier could reach over the start of the name (`Spelling.ReachesOver`). None
  does, because inside an occurrence no other one can start: `not_reachesOver_operator`,
  `not_reachesOver_arrow`.
* The text behind could make another operator of it. That one is longer, because of two operators
  that start alike the longer is looked for first: `Text.exists_afterAny?_append`.

The main result is `operator_names_inert`: the characters are symbols, they are neither openers nor
closers to a walk over brackets, and lie in symbol tokens only (`Source.Inert`).
-/

namespace DiagLayout

/-- A word of a list in which no word is the start of a later one is found, or a longer one. -/
theorem Text.exists_afterAny?_append {words : List Text}
    (hwords : words.Pairwise fun w w' => ¬ w <+: w') {w : Text} (hw : w ∈ words) (t : Text) :
    ∃ rest, Text.afterAny? words (w ++ t) = some rest ∧ rest.length ≤ t.length := by
  induction words with
  | nil => cases hw
  | cons w' words ih =>
    obtain ⟨hlater, hwords⟩ := List.pairwise_cons.mp hwords
    cases hrest : Text.after? w' (w ++ t) with
    | some rest =>
      refine ⟨rest, by rw [afterAny?, List.findSome?_cons, hrest], ?_⟩
      have heq := congrArg List.length (Text.eq_append_of_after? hrest)
      rw [List.length_append, List.length_append] at heq
      -- were `w'` shorter than `w`, it would be a start of it
      have hle : w.length ≤ w'.length := by
        rcases List.mem_cons.mp hw with rfl | hw
        · exact Nat.le_refl _
        · by_contra hlt
          refine hlater w hw (List.prefix_of_prefix_length_le ⟨rest, ?_⟩ ⟨t, rfl⟩ (by omega))
          exact (Text.eq_append_of_after? hrest).symm
      omega
    | none =>
      rcases List.mem_cons.mp hw with rfl | hw
      · rw [Text.after?_append] at hrest
        cases hrest
      · obtain ⟨rest, hsome, hle⟩ := ih hwords hw
        exact ⟨rest, by rw [afterAny?, List.findSome?_cons, hrest]; exact hsome, hle⟩

namespace Spelling

/-! ### Occurrences behind a text -/

/-- An occurrence that starts in `pre` reaches over the start of `t`, which stands behind it. -/
def ReachesOver (s : Spelling) (pre t : Text) : Prop :=
  ∃ (u v : Text) (before : Option Char) (n : Nat), pre = u ++ v ∧ v ≠ [] ∧
    s.length? before (v ++ t) = some n ∧ v.length < n

theorem ReachesOver.cons {s : Spelling} {pre t : Text} (c : Char) (h : s.ReachesOver pre t) :
    s.ReachesOver (c :: pre) t := by
  obtain ⟨u, v, before, n, rfl, hrest⟩ := h
  exact ⟨c :: u, v, before, n, rfl, hrest⟩

/-- The marks behind `pre` are those of the rest of the text. What an occurrence still covers there
was covered from the beginning, or the occurrence starts in `pre`. -/
theorem exists_drop_coveredFrom (s : Spelling) (t : Text) : ∀ (pre : Text) (left : Nat)
    (before : Option Char), ∃ left', (s.coveredFrom left before (pre ++ t)).drop pre.length =
      s.coveredFrom left' (pre.getLast?.or before) t ∧
        (0 < left' → left = pre.length + left' ∨ s.ReachesOver pre t) := by
  intro pre
  induction pre with
  | nil => exact fun left before => ⟨left, rfl, fun _ => Or.inl (Nat.zero_add left).symm⟩
  | cons c pre ih =>
    intro left before
    have hlast : (c :: pre).getLast?.or before = pre.getLast?.or (some c) := by
      rw [List.getLast?_cons]
      cases pre.getLast? <;> rfl
    rw [hlast]
    rcases left with _ | left
    · cases hn : s.length? before (c :: (pre ++ t)) with
      | none =>
        obtain ⟨left', hdrop, hleft⟩ := ih 0 (some c)
        refine ⟨left', by rw [List.cons_append, coveredFrom, hn]; exact hdrop, fun hpos => ?_⟩
        exact Or.inr (((hleft hpos).resolve_left (by omega)).cons c)
      | some n =>
        rcases n with _ | n
        · obtain ⟨left', hdrop, hleft⟩ := ih 0 (some c)
          refine ⟨left', by rw [List.cons_append, coveredFrom, hn]; exact hdrop, fun hpos => ?_⟩
          exact Or.inr (((hleft hpos).resolve_left (by omega)).cons c)
        · obtain ⟨left', hdrop, hleft⟩ := ih n (some c)
          refine ⟨left', by rw [List.cons_append, coveredFrom, hn]; exact hdrop, fun hpos => ?_⟩
          rcases hleft hpos with rfl | hover
          · refine Or.inr ⟨[], c :: pre, before, _, rfl, List.cons_ne_nil _ _, hn, ?_⟩
            rw [List.length_cons]
            omega
          · exact Or.inr (hover.cons c)
    · obtain ⟨left', hdrop, hleft⟩ := ih left (some c)
      refine ⟨left', hdrop, fun hpos => ?_⟩
      rcases hleft hpos with rfl | hover
      · left
        rw [List.length_cons]
        omega
      · exact Or.inr (hover.cons c)

/-- **A spelling is found behind a text** from which none reaches over, and all of it is marked. -/
theorem covered_behind {s : Spelling} {pre t rest : Text} (h : s.rest? pre.getLast? t = some rest)
    (hover : ¬ s.ReachesOver pre t) {x : Nat} (hx : pre.length ≤ x)
    (hlt : x + rest.length < pre.length + t.length) :
    (s.covered (pre ++ t))[x]? = some true := by
  obtain ⟨left, hdrop, hleft⟩ := s.exists_drop_coveredFrom t pre 0 none
  obtain rfl : left = 0 := by
    by_contra hne
    rcases hleft (Nat.pos_of_ne_zero hne) with hzero | hreach
    · omega
    · exact hover hreach
  rw [Option.or_none] at hdrop
  obtain ⟨k, rfl⟩ := Nat.exists_eq_add_of_le hx
  rw [covered, ← List.getElem?_drop, hdrop]
  obtain ⟨n, hn⟩ : ∃ n, t.length - rest.length = n + 1 := ⟨t.length - rest.length - 1, by omega⟩
  rcases t with _ | ⟨c, t⟩
  · simp at hn
  have hlength : s.length? pre.getLast? (c :: t) = some (n + 1) := by
    rw [length?, h, Option.map_some, hn]
  have hmarks : s.coveredFrom 0 pre.getLast? (c :: t) =
      s.coveredFrom (n + 1) pre.getLast? (c :: t) := by
    conv_lhs => rw [coveredFrom, hlength]
    rfl
  rw [hmarks]
  exact s.coveredFrom_left (by omega) (by omega)

/-! ### Names of operators -/

/-- The operators whose names hold a bracket or a comma. -/
def operators : List Text :=
  ["()".toList, "[]".toList, "<=>".toList, "<<=".toList, ">>=".toList, "<<".toList, ">>".toList,
   "<=".toList, ">=".toList, "->*".toList, "->".toList, "<".toList, ">".toList, ",".toList,
   "new[]".toList, "delete[]".toList]

/-- **An operator is found, or a longer one** that the text behind it makes of it. -/
theorem exists_afterOperator?_append {op : Text} (hop : op ∈ operators) (post : Text) :
    ∃ rest, afterOperator? (op ++ post) = some rest ∧ rest.length ≤ post.length := by
  by_cases hsign : op ∈ operatorSigns
  · obtain ⟨rest, hrest, hle⟩ := Text.exists_afterAny?_append (by decide) hsign post
    exact ⟨rest, by rw [afterOperator?, hrest], hle⟩
  · have hword : op = "new[]".toList ∨ op = "delete[]".toList := by
      revert op
      decide
    refine ⟨post, ?_, Nat.le_refl _⟩
    rcases hword with rfl | rfl
    · rfl
    · rfl

theorem dropWhile_isBlank_append {ws op : Text} (hws : ∀ c ∈ ws, Text.isBlank c = true)
    (hop : op ∈ operators) (post : Text) :
    (ws ++ (op ++ post)).dropWhile Text.isBlank = op ++ post := by
  have hheads : ∀ op ∈ operators, op.head?.any (fun c => !Text.isBlank c) = true := by
    decide +kernel
  obtain ⟨c, hc, hblank⟩ := (Option.any_eq_true _ _).mp (hheads op hop)
  obtain ⟨t, rfl⟩ := List.head?_eq_some_iff.mp hc
  rw [List.dropWhile_append_of_pos hws, List.cons_append,
    List.dropWhile_cons_of_neg (by simpa using hblank)]

/-- The name of an operator is found at the start of a word. -/
theorem exists_afterOperatorName?_append {before : Option Char} {ws op : Text}
    (hbefore : before.any Text.isWord = false) (hws : ∀ c ∈ ws, Text.isBlank c = true)
    (hop : op ∈ operators) (post : Text) :
    ∃ rest, afterOperatorName? before ("operator".toList ++ (ws ++ (op ++ post))) = some rest ∧
      rest.length ≤ post.length := by
  obtain ⟨rest, hrest, hle⟩ := exists_afterOperator?_append hop post
  refine ⟨rest, ?_, hle⟩
  rw [afterOperatorName?, Text.after?_append, Option.bind_eq_bind, Option.bind_some, hbefore,
    if_neg Bool.false_ne_true, dropWhile_isBlank_append hws hop, hrest]

/-- Behind the word itself the name of an operator has no `o`. -/
theorem exists_of_afterOperatorName? {before : Option Char} {t rest : Text}
    (h : afterOperatorName? before t = some rest) :
    ∃ z : Text, t = "operator".toList ++ (z ++ rest) ∧ 'o' ∉ z := by
  obtain ⟨t', ht', h⟩ := Option.bind_eq_some_iff.mp h
  split_ifs at h
  have hblank : 'o' ∉ t'.takeWhile Text.isBlank := fun hmem =>
    absurd (List.mem_takeWhile_imp hmem) (by decide)
  -- an operator, in either form, has none
  obtain ⟨z, hz, hfree⟩ : ∃ z : Text, t'.dropWhile Text.isBlank = z ++ rest ∧ 'o' ∉ z := by
    unfold afterOperator? at h
    split at h
    · next r hr =>
      obtain ⟨w, hw, heq⟩ := Text.exists_isPrefix_of_afterAny? hr
      obtain rfl := Option.some.inj h
      have hsigns : ∀ w ∈ operatorSigns, 'o' ∉ w := by decide
      exact ⟨w, heq, hsigns w hw⟩
    · obtain ⟨r, hr, h⟩ := Option.bind_eq_some_iff.mp h
      obtain ⟨w, hw, heq⟩ := Text.exists_isPrefix_of_afterAny? hr
      have hwords : ∀ w ∈ ["new".toList, "delete".toList], 'o' ∉ w := by decide
      refine ⟨w ++ (r.takeWhile Text.isBlank ++ "[]".toList), ?_, ?_⟩
      · rw [heq, List.append_assoc, List.append_assoc, ← Text.eq_append_of_after? h,
          List.takeWhile_append_dropWhile]
      · simp only [List.mem_append, not_or]
        exact ⟨hwords w hw, fun hmem => absurd (List.mem_takeWhile_imp hmem) (by decide), by decide⟩
  refine ⟨t'.takeWhile Text.isBlank ++ z, ?_, by simp [hblank, hfree]⟩
  rw [List.append_assoc, ← hz, List.takeWhile_append_dropWhile]
  exact Text.eq_append_of_after? ht'

/-- The first character behind `v` stands in the head of an occurrence that covers it, if the tail
of the occurrence has no such character. -/
theorem getElem?_head_of_inside {v t head tail rest : Text} {c : Char}
    (h : v ++ t = head ++ (tail ++ rest)) (hc : t.head? = some c)
    (hlt : v.length < (v ++ t).length - rest.length) (htail : c ∉ tail) :
    head[v.length]? = some c := by
  have hchar : (head ++ (tail ++ rest))[v.length]? = some c := by
    rw [← h, List.getElem?_append_right (Nat.le_refl _), Nat.sub_self, ← List.head?_eq_getElem?, hc]
  by_cases hhead : v.length < head.length
  · rwa [List.getElem?_append_left hhead] at hchar
  · have hlen : v.length - head.length < tail.length := by
      rw [h] at hlt
      simp only [List.length_append] at hlt
      omega
    rw [List.getElem?_append_right (Nat.not_lt.mp hhead), List.getElem?_append_left hlen] at hchar
    exact absurd (List.mem_of_getElem? hchar) htail

/-- **No name of an operator reaches over another** that starts a word. -/
theorem not_reachesOver_operator {pre : Text} (hpre : pre.getLast?.any Text.isWord = false)
    (t : Text) : ¬ operatorName.ReachesOver pre ("operator".toList ++ t) := by
  rintro ⟨u, v, before, n, rfl, hv, hn, hlt⟩
  obtain ⟨rest, hrest, rfl⟩ := Option.map_eq_some_iff.mp hn
  obtain ⟨tail, heq, htail⟩ := exists_of_afterOperatorName? hrest
  have hhead : "operator".toList[v.length]? = some 'o' := getElem?_head_of_inside heq rfl hlt htail
  -- so `v` ends in the middle of the word
  have hpos : 0 < v.length := List.length_pos_iff.mpr hv
  have hsix : ∀ k < 8, 0 < k → "operator".toList[k]? = some 'o' → k = 6 := by decide
  have hv6 := hsix v.length (List.getElem?_eq_some_iff.mp hhead).1 hpos hhead
  have hword : v = "operat".toList := by
    have htake := congrArg (List.take 6) heq
    rwa [← hv6, List.take_left, hv6] at htake
  rw [hword, List.getLast?_append_of_ne_nil _ (by decide)] at hpre
  exact absurd hpre (by decide)

/-! ### Arrows -/

theorem exists_of_afterArrow? {t rest : Text} (h : afterArrow? t = some rest) :
    ∃ tail : Text, t = "-".toList ++ (tail ++ rest) ∧ '-' ∉ tail := by
  obtain ⟨t', ht', h⟩ := Option.map_eq_some_iff.mp h
  have heq := Text.eq_append_of_after? ht'
  cases hstar : Text.after? "*".toList t' with
  | none =>
    rw [hstar, Option.getD_none] at h
    subst h
    exact ⟨">".toList, heq, by decide⟩
  | some t'' =>
    rw [hstar, Option.getD_some] at h
    subst h
    exact ⟨">*".toList, by rw [heq, Text.eq_append_of_after? hstar]; rfl, by decide⟩

/-- **No arrow reaches over another.** -/
theorem not_reachesOver_arrow (pre t : Text) : ¬ arrow.ReachesOver pre ("->".toList ++ t) := by
  rintro ⟨u, v, before, n, rfl, hv, hn, hlt⟩
  obtain ⟨rest, hrest, rfl⟩ := Option.map_eq_some_iff.mp hn
  obtain ⟨tail, heq, htail⟩ := exists_of_afterArrow? hrest
  have hhead : "-".toList[v.length]? = some '-' := getElem?_head_of_inside heq rfl hlt htail
  obtain ⟨hlt, -⟩ := List.getElem?_eq_some_iff.mp hhead
  exact hv (List.eq_nil_of_length_eq_zero (Nat.lt_one_iff.mp hlt))

theorem exists_afterArrow?_append (t : Text) :
    ∃ rest, afterArrow? ("->".toList ++ t) = some rest ∧ rest.length ≤ t.length := by
  rw [afterArrow?, Text.after?_append, Option.map_some]
  refine ⟨_, rfl, ?_⟩
  cases hstar : Text.after? "*".toList t with
  | none => exact Nat.le_refl _
  | some rest =>
    have heq := congrArg List.length (Text.eq_append_of_after? hstar)
    rw [List.length_append] at heq
    rw [Option.getD_some]
    omega

end Spelling

/-! ### Characters that are no delimiters -/

namespace Source

variable {src : Source}

/-- **The glyph at the position delimits nothing**: it is a symbol, it opens no group and closes
none, and in whatever stretch it lies, its token is a symbol. -/
structure Inert (src : Source) (x : Nat) : Prop where
  symbol : src.kind? x = some .symbol
  opens_none : ∀ stop, src.findCloser x stop = .ok none
  closes_none : ∀ (p : Int) (stop : Nat), src.findCloser p stop ≠ .ok (some x)
  token : ∀ e : Extent, e.start ≤ x → x < e.stop → e.stop ≤ src.length → ∃ ts,
    src.readTokens e = .ok ts ∧ (∃ t ∈ ts, t.start ≤ x ∧ x < t.stop) ∧
      ∀ t ∈ ts, t.start ≤ x → x < t.stop → t.kind = .symbol

/-- What a walk from an opener finds is a closer. -/
theorem kind?_of_findCloser {p : Int} {stop c : Nat} (h : src.findCloser p stop = .ok (some c)) :
    src.kind? c = some .closer := by
  have hopen : src.kind? p = some .opener := by
    by_contra hne
    rw [findCloser, if_neg hne] at h
    cases h
  obtain ⟨n, rfl⟩ := Int.eq_ofNat_of_zero_le (nonneg_of_kind? hopen)
  obtain ⟨o, ho, hok⟩ := Option.map_eq_some_iff.mp (kind?_natCast src n ▸ hopen)
  rw [findCloser, if_pos hopen, Int.toNat_natCast] at h
  simp only at h
  split at h
  · next d hd =>
    obtain rfl : n + d = c := Option.some.inj (Except.ok.inj h)
    obtain ⟨rest, hrest⟩ : ∃ rest, src.window ⟨n, stop⟩ = o :: rest := by
      by_cases hn : n < stop
      · exact ⟨_, window_eq_cons ho hn⟩
      · simp [window, Nat.sub_eq_zero_of_le (Nat.not_lt.mp hn), closing] at hd
    have hend : groupEnd? (src.window ⟨n, stop⟩) = some d := by
      rw [hrest] at hd ⊢
      rw [groupEnd?, if_pos hok, hd]
    obtain ⟨_, g, b, u, v, hw, -, hg, -, rfl⟩ := exists_group_of_groupEnd? hend
    obtain ⟨more, hmore⟩ := window_isPrefix src ⟨n, stop⟩
    have hat : src[n + (u.length + 1)]? = some g := by
      rw [← List.getElem?_drop, ← hmore, hw]
      simp
    rw [kind?_natCast, hat, Option.map_some, Glyph.kind_eq_closer.mpr ⟨b, hg⟩]
  · cases h
  · split_ifs at h
    cases h

/-- A token with a symbol in it is a symbol. -/
theorem TokenAt.kind_eq_symbol {e : Extent} {t : Token} (h : src.TokenAt e t) {x : Nat}
    (hx : t.start ≤ x) (hlt : x < t.stop) (hkind : src.kind? x = some .symbol) :
    t.kind = .symbol := by
  have hrun : ∀ {k : Kind} {i j : Nat}, src.RunTo e k i j → i ≤ x → x < j → k = .symbol := by
    intro k i j hr hi hj
    rw [hr.kind_eq x hi hj] at hkind
    exact Option.some.inj hkind
  have hfirst : x = t.start → t.kind = .symbol := by
    rintro rfl
    rw [h.kind_eq] at hkind
    exact Option.some.inj hkind
  cases hk : t.kind with
  | opener =>
    have := h.opener hk
    exact hk ▸ hfirst (by omega)
  | closer =>
    obtain ⟨w, hw, hend⟩ := h.closer hk
    by_cases heq : x = t.start
    · exact hk ▸ hfirst heq
    · split_ifs at hend
      · cases hrun hw (by omega) (by omega)
      · omega
  | separator =>
    obtain ⟨s, hsep, hsp⟩ := h.separator hk
    by_cases hxs : x < s
    · cases hrun hsep.toRunTo hx hxs
    · cases hrun hsp (by omega) hlt
  | space =>
    have hspaces := h.run (Or.inl hk)
    rw [hk] at hspaces
    cases hrun hspaces.toRunTo hx hlt
  | symbol => rfl

theorem inert_of_symbol {x : Nat} (h : src.kind? x = some .symbol) : src.Inert x := by
  refine ⟨h, fun stop => ?_, fun p stop hfound => ?_, fun e hx hlt hlen => ?_⟩
  · rw [findCloser, if_neg (by simp [h])]
  · rw [kind?_of_findCloser hfound] at h
    cases h
  · have hparts : src.Partitioned e (src.tokens e) := partitioned_tokens (by omega) hlen
    refine ⟨src.tokens e, readTokens_eq_ok hlen, hparts.tiles.exists_mem hx hlt, ?_⟩
    exact fun t ht hstart hstop => (hparts.tokenAt t ht).kind_eq_symbol hstart hstop h

end Source

/-- A character that a spelling covers delimits nothing. -/
theorem Spelling.inert_of_covered {s : Spelling} {t : Text} {x : Nat} (hs : s ∈ Spelling.all)
    (h : (s.covered t)[x]? = some true) : (Source.ofText t).Inert x := by
  refine Source.inert_of_symbol ?_
  have hx : x < t.length := by
    obtain ⟨hlt, -⟩ := List.getElem?_eq_some_iff.mp h
    rwa [Spelling.length_covered] at hlt
  rw [Source.kind?_natCast, Source.getElem?_ofText (List.getElem?_eq_getElem hx)
    (spelled_of_covered hs h)]
  rfl

/-- **Operator names and arrows delimit nothing.** The word `operator`, blanks and an operator
delimit nothing wherever a word may start, whatever stands behind them; and neither do the two
characters of an arrow, wherever they stand. -/
theorem operator_names_inert :
    (∀ pre ws op post : Text, pre.getLast?.any Text.isWord = false →
      (∀ c ∈ ws, Text.isBlank c = true) → op ∈ Spelling.operators →
        ∀ x, pre.length ≤ x → x < pre.length + ("operator".toList ++ ws ++ op).length →
          (Source.ofText (pre ++ ("operator".toList ++ ws ++ op) ++ post)).Inert x) ∧
    ∀ (pre post : Text) (x : Nat), pre.length ≤ x → x < pre.length + 2 →
      (Source.ofText (pre ++ "->".toList ++ post)).Inert x := by
  constructor
  · intro pre ws op post hpre hws hop x hx hlt
    obtain ⟨rest, hrest, hle⟩ := Spelling.exists_afterOperatorName?_append hpre hws hop post
    have htext : pre ++ ("operator".toList ++ ws ++ op) ++ post =
        pre ++ ("operator".toList ++ (ws ++ (op ++ post))) := by
      simp only [List.append_assoc]
    rw [htext]
    refine Spelling.inert_of_covered (by simp [Spelling.all])
      (Spelling.covered_behind (s := .operatorName) hrest
        (Spelling.not_reachesOver_operator hpre _) hx ?_)
    simp only [List.length_append] at hlt ⊢
    omega
  · intro pre post x hx hlt
    obtain ⟨rest, hrest, hle⟩ := Spelling.exists_afterArrow?_append post
    rw [List.append_assoc]
    refine Spelling.inert_of_covered (by simp [Spelling.all])
      (Spelling.covered_behind (s := .arrow) hrest (Spelling.not_reachesOver_arrow pre post) hx ?_)
    rw [List.length_append, show "->".toList.length = 2 from rfl]
    omega

/-- A comparison that the text behind it turns into another one, inside parentheses and behind an
arrow; its angle bracket is no opener, while the one of the template arguments behind it is. -/
theorem operator_names_inert_comparison :
    let t := "(a->operator <=>)<b>".toList
    (Source.ofText t).Inert 3 ∧ (Source.ofText t).Inert 13 ∧
      (Source.ofText t).kind? 17 = some .opener := by
  intro t
  refine ⟨?_, ?_, by decide +kernel⟩
  · exact operator_names_inert.2 "(a".toList "operator <=>)<b>".toList 3 (by decide) (by decide)
  · exact operator_names_inert.1 "(a->".toList " ".toList "<".toList "=>)<b>".toList
      (by decide +kernel) (Text.forall_mem_of_all (by decide)) (by decide) 13 (by decide)
      (by decide)

end DiagLayout
