import DiagLayout.Proofs.FittingExpressions
import DiagLayout.Proofs.LongerReading
import DiagLayout.Proofs.WidthBound

/-!
# How the corpus is read

The types of the corpus are read as types to their end, and the functions that its lines quote as
functions. The brackets of a type are nested (`Types.nested_listed`), so that the grammar passes
over its arguments without looking into them; the rest is a word or two.

* `Spelling.not_covered`: where a spelling never applies it marks nothing;
* `consume_type_of_word`: what a type reads at a word that is a name;
* `consume_type`: a type of the corpus is read to its end;
* `consume_call`, `consume_instantiation`: so are the functions of its lines;
* `Types.depth_regions`: the regions of a type are no deeper than its brackets.
-/

namespace DiagLayout

/-! ### Spellings behind a parenthesis -/

namespace Spelling

/-- The words that labels with a place start with. -/
def placeStarts : List Text := ["(lambda".toList, "(anonymous".toList, "(unnamed".toList]

theorem exists_placeStart {t rest : Text} (h : afterPlaceLabel? t = some rest) :
    ∃ w ∈ placeStarts, w <+: t := by
  unfold afterPlaceLabel? at h
  split at h
  · next r hr =>
    obtain ⟨t', ht', hr⟩ := Option.bind_eq_some_iff.mp hr
    obtain ⟨r', hr', -⟩ := Option.bind_eq_some_iff.mp hr
    obtain rfl := Text.eq_append_of_after? ht'
    unfold afterPlaceSubject? at hr'
    split at hr'
    · next r'' hlambda =>
      refine ⟨"(lambda".toList, by simp [placeStarts], r'', ?_⟩
      rw [Text.eq_append_of_after? hlambda]
      rfl
    · obtain ⟨r'', hr'', -⟩ := Option.map_eq_some_iff.mp hr'
      obtain ⟨w, hw, rfl⟩ := Text.exists_isPrefix_of_afterAny? hr''
      refine ⟨'(' :: w, ?_, r'', rfl⟩
      simp only [anonymousWords, List.mem_cons, List.not_mem_nil, or_false] at hw
      rcases hw with rfl | rfl
      · simp [placeStarts]
      · simp [placeStarts]
  · refine ⟨"(anonymous".toList, by simp [placeStarts], " namespace)".toList ++ rest, ?_⟩
    rw [Text.eq_append_of_after? h]
    rfl

/-- Only labels with a place start with a parenthesis. -/
theorem rest?_parenthesis {s : Spelling} (hs : s ≠ placeLabel) (before : Option Char) (t : Text) :
    s.rest? before ('(' :: t) = none := by
  cases s with
  | placeLabel => exact absurd rfl hs
  | charLiteral | operatorName | arrow | lambdaLabel | anonymousLabel => rfl

/-- The words that spellings start with, where those that start with a parenthesis go on. -/
def longStarts : List Text := starts.filter (· ≠ "(".toList) ++ placeStarts

theorem exists_longStart_of_rest? {s : Spelling} {before : Option Char} {t rest : Text}
    (h : s.rest? before t = some rest) : ∃ w ∈ longStarts, w <+: t := by
  by_cases hs : s = placeLabel
  · subst hs
    obtain ⟨w, hw, hstarts⟩ := exists_placeStart h
    exact ⟨w, List.mem_append_right _ hw, hstarts⟩
  · obtain ⟨w, hw, hstarts⟩ := exists_start_of_rest? h
    refine ⟨w, List.mem_append_left _ (List.mem_filter.mpr ⟨hw, ?_⟩), hstarts⟩
    rw [decide_eq_true_eq]
    rintro rfl
    obtain ⟨t, rfl⟩ := hstarts
    cases (rest?_parenthesis hs before t).symm.trans h

/-- **Where a spelling never applies it marks nothing.** -/
theorem not_covered (s : Spelling) {t : Text} : ∀ {before : Option Char},
    (∀ p before, s.rest? before (t.drop p) = none) →
      ∀ x : Nat, (s.coveredFrom 0 before t)[x]? ≠ some true := by
  induction t with
  | nil => intro before _ x hx; simp [coveredFrom] at hx
  | cons c t ih =>
    intro before h x hx
    have hnone : s.length? before (c :: t) = none := by
      rw [length?, Option.map_eq_none_iff]
      exact h 0 before
    rw [coveredFrom, hnone] at hx
    rcases x with _ | x
    · cases hx
    · exact ih (fun p before => h (p + 1) before) x (by simpa using hx)

end Spelling

/-! ### Grammars at a word -/

namespace Grammar

variable {g : Grammar} {gs : List Grammar} {src : List Glyph} {n m : Nat}

theorem consume_seqs_cons (hg : g.consume src = some n)
    (hgs : (seqs gs).consume (src.drop n) = some m) :
    (seqs (g :: gs)).consume src = some (n + m) := by
  change (seq g (seqs gs)).consume src = _
  rw [consume, hg, Option.bind_eq_bind, Option.bind_some, hgs]
  rfl

theorem consume_seqs_skip (hg : g.consume src = some 0) :
    (seqs (g :: gs)).consume src = (seqs gs).consume src := by
  change (seq g (seqs gs)).consume src = _
  rw [consume, hg, Option.bind_eq_bind, Option.bind_some, List.drop_zero]
  cases (seqs gs).consume src <;> simp

theorem consume_seqs_one (g : Grammar) (src : List Glyph) :
    (seqs [g]).consume src = g.consume src := by
  change (seq g empty).consume src = _
  rw [consume]
  cases g.consume src <;> rfl

theorem consume_seqs_none (hg : g.consume src = none) : (seqs (g :: gs)).consume src = none := by
  change (seq g (seqs gs)).consume src = _
  rw [consume, hg]
  rfl

theorem consume_seqs_behind_none (hg : g.consume src = some n)
    (hgs : (seqs gs).consume (src.drop n) = none) : (seqs (g :: gs)).consume src = none := by
  change (seq g (seqs gs)).consume src = _
  rw [consume, hg, Option.bind_eq_bind, Option.bind_some, hgs]
  rfl

theorem consume_opt (hg : g.consume src = some n) : (opt g).consume src = some n := by
  rw [consume, hg]
  rfl

theorem consume_opt_none (hg : g.consume src = none) : (opt g).consume src = some 0 := by
  rw [consume, hg]
  rfl

theorem consume_many_none (hg : g.consume src = none) : (many g).consume src = none := by
  rw [consume, hg]
  rfl

theorem consume_many_last (hg : g.consume src = some n) (hn : src.drop n = []) :
    (many g).consume src = some n := by
  rw [consume, hg, Option.bind_eq_bind, Option.bind_some, hn, repeated, Nat.add_zero]

theorem consume_alts_first (hg : g.consume src = some n) :
    (alts (g :: gs)).consume src = some n := by
  change (alt g (alts gs)).consume src = _
  rw [consume, hg]
  rfl

theorem consume_alts_none (h : ∀ g ∈ gs, g.consume src = none) : (alts gs).consume src = none := by
  induction gs with
  | nil => rfl
  | cons g gs ih =>
    change (alt g (alts gs)).consume src = _
    rw [consume, h g List.mem_cons_self, ih fun g' hg' => h g' (List.mem_cons_of_mem _ hg')]
    rfl

theorem consume_alts_second {g' : Grammar} (hg : g.consume src = none)
    (hg' : g'.consume src = some n) : (alts [g, g']).consume src = some n := by
  change (alt g (alts [g'])).consume src = _
  rw [consume, hg]
  exact consume_alts_first hg'

/-- The glyphs of a group are read as a whole. -/
theorem consume_group {o c : Glyph} {b : Bracket} {u : List Glyph} (ho : o.cls = .opener b)
    (hc : c.cls = .closer b) (hu : Nested Glyph.cls u) (v : List Glyph) :
    (group o.char).consume (o :: (u ++ c :: v)) = some (u.length + 2) := by
  rw [consume, groupLength?, if_pos rfl, groupEnd?_group ho hc hu v]
  rfl

end Grammar

/-! ### Readings to the end -/

namespace Match

theorem of?_eq_whole {r : Reading} {src : Source}
    (h : r.grammar.consume src = some src.length) : of? r src = some ⟨r, src.length⟩ := by
  have hpos := Grammar.consume_pos r.grammar_advances h
  obtain ⟨n, hn⟩ := Nat.exists_eq_add_one_of_ne_zero hpos.ne'
  rw [hn] at h
  rw [of?, h, hn]

/-- A function that is read to its end is the match. -/
theorem best?_of_function_whole {src : Source}
    (h : Reading.function.grammar.consume src = some src.length) :
    best? src = some ⟨.function, src.length⟩ := by
  rw [best?_eq_longer, of?_eq_whole h]
  cases ht : of? .type src with
  | none => rfl
  | some t =>
    have hle : t.length ≤ src.length := of?_le ht
    rw [longer, if_neg (Nat.not_lt.mpr hle)]

/-- **The match covers all that some reading covers.** -/
theorem exists_coversAll {r : Reading} {src : Source}
    (h : r.grammar.consume src = some src.length) :
    ∃ m, best? src = some m ∧ m.coversAll src = true := by
  have hof := of?_eq_whole h
  cases hbest : best? src with
  | none =>
    rw [best?_eq_longer, longer_eq_none_iff] at hbest
    cases r with
    | function => cases hof.symm.trans hbest.1
    | type => cases hof.symm.trans hbest.2
  | some m =>
    refine ⟨m, rfl, ?_⟩
    obtain ⟨-, hle, -⟩ := balanced_of_best? hbest
    rw [best?_eq_longer] at hbest
    have hge : src.length ≤ m.length := by
      rcases longer_cases hbest with ⟨hm, hothers⟩ | ⟨hm, hothers⟩
      · cases r with
        | function => cases hof.symm.trans hm; exact Nat.le_refl _
        | type => exact hothers _ hof
      · cases r with
        | function => exact Nat.le_of_lt (hothers _ hof)
        | type => cases hof.symm.trans hm; exact Nat.le_refl _
    simp only [coversAll, beq_iff_eq]
    omega

end Match

namespace Corpus

open Grammar Dialect

/-- The text is a word: symbols, at least one. -/
def Word (w : Text) : Prop := w ≠ [] ∧ ∀ c ∈ w, baseClass c = .symbol

instance (w : Text) : Decidable (Word w) :=
  decidable_of_iff (w ≠ [] ∧ (w.all fun c => baseClass c = .symbol) = true) (by simp [Word])

/-- No symbol is at the start. -/
def Parted (rest : List Glyph) : Prop := ∀ g ∈ rest.head?, g.kind ≠ .symbol

theorem drop_word (w : Text) (rest : List Glyph) : (plain w ++ rest).drop w.length = rest := by
  rw [← length_plain w, List.drop_left]

section Words

variable {w : Text} {rest : List Glyph} (hw : Word w) (hrest : Parted rest)
include hw hrest

theorem runLength_word : runLength .symbol (plain w ++ rest) = w.length := by
  have hall : (plain w).takeWhile (Glyph.isKind .symbol) = plain w := by
    refine List.takeWhile_eq_self_iff.mpr fun g hg => ?_
    obtain ⟨c, hc, rfl⟩ := List.mem_map.mp hg
    simp [Glyph.isKind, Glyph.kind, hw.2 c hc, CharClass.kind]
  rw [runLength_append (Or.inr hrest), runLength, hall, length_plain]

theorem consume_symbol : symbol.consume (plain w ++ rest) = some w.length := by
  have hpos : w.length ≠ 0 := by simpa using hw.1
  rw [symbol, consume, runLength_word hw hrest, if_neg hpos]

theorem consume_word_ne {t : Text} (ht : w ≠ t) : (word t).consume (plain w ++ rest) = none := by
  have htext : Glyph.text ((plain w ++ rest).take w.length) = w := by
    rw [← length_plain w, List.take_left, text_plain]
  rw [consume, runLength_word hw hrest, htext, if_neg ht]

theorem consume_spacedWord_ne {t : Text} (ht : w ≠ t) :
    (spacedWord t).consume (plain w ++ rest) = none :=
  consume_seqs_none (consume_word_ne hw hrest ht)

theorem consume_anyWord_none {ts : List Text} (ht : w ∉ ts) :
    (anyWord ts).consume (plain w ++ rest) = none := by
  refine consume_alts_none fun g hg => ?_
  obtain ⟨t, hmem, rfl⟩ := List.mem_map.mp hg
  exact consume_word_ne hw hrest fun heq => ht (heq ▸ hmem)

theorem consume_spacedWords_none {ts : List Text} (ht : w ∉ ts) :
    (opt (many (alts (ts.map spacedWord)))).consume (plain w ++ rest) = some 0 := by
  refine consume_opt_none (consume_many_none (consume_alts_none fun g hg => ?_))
  obtain ⟨t, hmem, rfl⟩ := List.mem_map.mp hg
  exact consume_spacedWord_ne hw hrest fun heq => ht (heq ▸ hmem)

/-- What may follow the name of a type. -/
def typeTail : List Grammar :=
  [opt templateArguments, opt (seqs [spaces, anyWord referenceMarks])]

/-- **A type at a word that is a name** reads the word and what may follow it. -/
theorem consume_type_of_word (hname : w ∉ "decltype".toList :: "constexpr".toList :: qualifiers)
    {n : Nat} (hn : (seqs typeTail).consume rest = some n) :
    type.consume (plain w ++ rest) = some (w.length + n) := by
  simp only [List.mem_cons, not_or] at hname
  obtain ⟨hdecl, hconst, hqual⟩ := hname
  have hfirst : decltypeOf.consume (plain w ++ rest) = none := by
    rw [decltypeOf, consume_seqs_skip (consume_opt_none (consume_spacedWord_ne hw hrest hconst))]
    exact consume_seqs_none (consume_word_ne hw hrest hdecl)
  have hnone : (opt (many qualifier)).consume (plain w ++ rest) = some 0 :=
    consume_spacedWords_none hw hrest hqual
  refine consume_alts_second hfirst ?_
  rw [consume_seqs_skip hnone]
  refine consume_seqs_cons (consume_symbol hw hrest) ?_
  rw [drop_word]
  exact hn

end Words

/-! ### The brackets of a type -/

theorem nested_group {o c : Glyph} {b : Bracket} {u v : List Glyph} (ho : o.cls = .opener b)
    (hc : c.cls = .closer b) (hu : Nested Glyph.cls u) (hv : Nested Glyph.cls v) :
    Nested Glyph.cls (o :: (u ++ c :: v)) := by
  rw [nested_iff_openAfter, openAfter_opener ho, openAfter_append, hu.openAfter_eq,
    Option.bind_some, openAfter_closer hc, hv.openAfter_eq]

theorem nested_plain {t : Text} (h : (t.any fun c => (baseClass c).isBracket) = false) :
    Nested Glyph.cls (plain t) := by
  refine .of_items fun g hg => ?_
  obtain ⟨c, hc, rfl⟩ := List.mem_map.mp hg
  exact Bool.eq_false_iff.mpr (List.any_eq_false.mp h c hc)

theorem NameLike.nested {name : Text} (h : NameLike name) : Nested Glyph.cls (plain name) := by
  refine nested_plain (List.any_eq_false.mpr fun c hc => ?_)
  rcases h.1 c hc with hcls | hcls <;> rw [hcls] <;> decide

namespace Types

theorem nested_behind {rest : Types} (h : ∀ gap, Nested Glyph.cls (plain (rest.listed gap)))
    (gap : Bool) : Nested Glyph.cls (plain (rest.behind gap)) := by
  unfold behind
  split_ifs
  · cases gap <;> exact nested_plain (by decide)
  · exact (nested_plain (t := [',', ' ']) (by decide)).append (h gap)

/-- **The brackets of types are nested.** -/
theorem nested_listed {ts : Types} :
    ts.Formed → ∀ gap, Nested Glyph.cls (plain (ts.listed gap)) := by
  induction ts with
  | nil =>
    intro _ gap
    cases gap <;> exact nested_plain (by decide)
  | leaf name rest ih =>
    rintro ⟨hname, hrest⟩ gap
    rw [listed_leaf, plain_append]
    exact (nameLike_of_mem name (List.mem_append_left _ hname)).nested.append
      (nested_behind (ih hrest) gap)
  | template name args g rest iha ihr =>
    rintro ⟨hname, -, -, hargs, hrest⟩ gap
    rw [listed_template, plain_append, plain_cons, plain_append, plain_cons]
    exact (nameLike_of_mem name (List.mem_append_right _ hname)).nested.append
      (nested_group (b := .angle) rfl rfl (iha hargs g) (nested_behind (ihr hrest) gap))

end Types

/-! ### Reading a type -/

theorem consume_leaf : ∀ name ∈ leaves, type.consume (plain name) = some name.length := by
  decide +kernel

theorem word_template : ∀ name ∈ templates, Word name ∧
    name ∉ "decltype".toList :: "constexpr".toList :: qualifiers := by
  decide +kernel

theorem drop_group (o c : Glyph) (u v : List Glyph) :
    (o :: (u ++ c :: v)).drop (u.length + 2) = v := by
  rw [List.drop_succ_cons, ← List.drop_drop, List.drop_left]
  rfl

/-- The arguments of a template are read as a whole, where nothing follows them. -/
theorem consume_arguments {u : List Glyph} (hu : Nested Glyph.cls u) :
    (seqs typeTail).consume (⟨'<', .opener .angle⟩ :: (u ++ [⟨'>', .closer .angle⟩])) =
      some (u.length + 2) := by
  have hdrop := drop_group ⟨'<', .opener .angle⟩ ⟨'>', .closer .angle⟩ u []
  have hlist : (seqs [group '<', opt symbol]).consume
      (⟨'<', .opener .angle⟩ :: (u ++ [⟨'>', .closer .angle⟩])) = some (u.length + 2) := by
    refine consume_seqs_cons (consume_group (b := .angle) rfl rfl hu []) (m := 0) ?_
    rw [hdrop]
    rfl
  refine consume_seqs_cons (consume_opt (consume_many_last hlist hdrop)) (m := 0) ?_
  rw [hdrop]
  rfl

/-- **A type of the corpus is read to its end.** -/
theorem consume_type {ts : Types} (h : ts.Formed) {t : Text} (ht : ts.texts = [t]) :
    type.consume (plain t) = some t.length := by
  cases ts with
  | nil => cases ht
  | leaf name rest =>
    obtain ⟨rfl, -⟩ := List.cons.inj ht
    exact consume_leaf name h.1
  | template name args gap rest =>
    obtain ⟨hname, -, -, hargs, -⟩ := h
    obtain ⟨hword, hfree⟩ := word_template name hname
    have hnil : rest.isNil = true := Types.texts_eq_nil_iff.mp (List.cons.inj ht).2
    obtain rfl : rest = .nil := Types.eq_nil_of_isNil hnil
    have hlisted := Types.listed_template name args gap .nil false
    rw [Types.listed_of_texts ht] at hlisted
    have hplain : plain t = plain name ++ (⟨'<', .opener .angle⟩ ::
        (plain (args.listed gap) ++ [⟨'>', .closer .angle⟩])) := by
      rw [hlisted, plain_append, plain_cons, plain_append]
      rfl
    have hlength : t.length = name.length + ((args.listed gap).length + 2) := by
      rw [hlisted]
      simp [Types.behind, Types.isNil, gapText]
    rw [hplain, hlength]
    refine consume_type_of_word hword (by rintro g ⟨⟩; decide) hfree ?_
    have harguments := consume_arguments (Types.nested_listed hargs gap)
    rwa [length_plain] at harguments

theorem IsTypeWithin.exists_types {d : Nat} {t : Text} (h : IsTypeWithin d t) :
    ∃ ts : Types, ts.Formed ∧ ts.texts = [t] ∧ ts.depth ≤ d := by
  obtain ⟨ts, -, hts, htexts, hle⟩ := h .nil trivial
  exact ⟨ts, hts, htexts, by simpa [Types.depth] using hle⟩

/-! ### The depth of a type -/

theorem regions_prepend (ts : List Token) (f : Forest Token) (d : Int) :
    (prepend ts f).regions d = f.regions d := by
  induction ts with
  | nil => rfl
  | cons t ts ih => exact ih

namespace Types

theorem regions_separated (rest : Types) (p : Nat) (f : Forest Token) (d : Int) :
    (rest.separated p f).regions d ⊆ f.regions d := by
  unfold separated
  split_ifs
  · exact List.nil_subset _
  · exact List.Subset.refl _

/-- **The regions of types are no deeper than their brackets.** -/
theorem depth_regions {ts : Types} : ∀ {p : Nat} {gap : Bool} {d : Int},
    ∀ r ∈ (ts.forest p gap).regions d, r.depth ≤ d + ts.depth := by
  induction ts with
  | nil => intro p gap d r hr; cases hr
  | leaf name rest ih =>
    intro p gap d r hr
    rw [forest, regions_prepend] at hr
    exact ih r (regions_separated _ _ _ _ hr)
  | template name args g rest iha ihr =>
    intro p gap d r hr
    rw [forest, regions_prepend, Forest.regions, List.mem_cons, List.mem_append] at hr
    rw [depth]
    rcases hr with rfl | hr | hr
    · simp only
      omega
    · have hle := iha r hr
      omega
    · have hle := ihr r (regions_separated _ _ _ _ hr)
      omega

/-- A type has its regions, none of them deeper than its brackets. -/
theorem exists_regions {ts : Types} (h : ts.Formed) {t : Text} (ht : ts.texts = [t]) :
    let src := Source.ofText t
    ∃ rs, src.regions src.whole = .ok rs ∧ ∀ r ∈ rs, r.depth ≤ ts.depth := by
  intro src
  obtain ⟨hword, hl⟩ := laid_forest h (congrArg Source.ofText (listed_of_texts ht).symm)
  refine ⟨_, regions_eq_of_laid (e := src.whole) (Nat.le_refl _) hword hl, fun r hr => ?_⟩
  have hle := depth_regions r hr
  rwa [Int.zero_add] at hle

end Types

/-! ### Reading a function -/

/-- What may follow the parameters of a function. -/
def parametersTail : List Grammar :=
  [opt spaces, opt (many (seqs [memberQualifier, opt spaces])), opt arrowReturn, opt withGroup]

/-- A function without its header and specifiers. -/
def functionTail : List Grammar :=
  [opt (seqs [type, spaces]), alts [seqs [type, parameters], seqs [symbol, group '<']]]

/-- A function at a word that is neither a header nor a specifier. -/
theorem consume_function_of_word {w : Text} {rest : List Glyph} (hw : Word w) (hrest : Parted rest)
    (hname : w ∉ "template".toList :: specifiers) :
    function.consume (plain w ++ rest) = (seqs functionTail).consume (plain w ++ rest) := by
  obtain ⟨hheader, hspecifiers⟩ := not_or.mp (mt List.mem_cons.mpr hname)
  have hnone : templateHeader.consume (plain w ++ rest) = none :=
    consume_seqs_none (consume_word_ne hw hrest hheader)
  rw [function, consume_seqs_skip (consume_opt_none hnone),
    consume_seqs_skip (consume_spacedWords_none hw hrest hspecifiers)]
  rfl

/-- The glyphs of a call, and those behind it. -/
def callGlyphs (u after : List Glyph) : List Glyph :=
  plain "consume".toList ++ (⟨'(', .opener .paren⟩ :: (u ++ ⟨')', .closer .paren⟩ :: after))

theorem word_consume : Word "consume".toList := by decide

theorem consume_type_call (u after : List Glyph) : type.consume (callGlyphs u after) = some 7 :=
  consume_type_of_word word_consume (by rintro g ⟨⟩; decide) (by decide) (n := 0) rfl

theorem length_callGlyphs (u after : List Glyph) :
    (callGlyphs u after).length = 7 + (u.length + 2 + after.length) := by
  simp [callGlyphs]
  omega

/-- **The name of a call and its parameters are read to the end**, if what follows them is. -/
theorem consume_named_call {u after : List Glyph} (hu : Nested Glyph.cls u)
    (hn : (seqs parametersTail).consume after = some after.length) :
    (alts [seqs [type, parameters], seqs [symbol, group '<']]).consume (callGlyphs u after) =
      some (callGlyphs u after).length := by
  have hparameters : parameters.consume
      (⟨'(', .opener .paren⟩ :: (u ++ ⟨')', .closer .paren⟩ :: after)) =
        some (u.length + 2 + after.length) := by
    refine consume_seqs_cons (consume_group (b := .paren) rfl rfl hu after) ?_
    rw [drop_group]
    exact hn
  rw [length_callGlyphs]
  refine consume_alts_first (consume_seqs_cons (consume_type_call u after) ?_)
  rw [consume_seqs_one]
  exact hparameters

/-- **A call is read to its end**, as a function. -/
theorem consume_call {u : List Glyph} (hu : Nested Glyph.cls u) :
    function.consume (callGlyphs u []) = some (callGlyphs u []).length := by
  have hreturn : (seqs [type, spaces]).consume (callGlyphs u []) = none :=
    consume_seqs_behind_none (consume_type_call u []) rfl
  rw [callGlyphs, consume_function_of_word word_consume (by rintro g ⟨⟩; decide) (by decide),
    ← callGlyphs, functionTail, consume_seqs_skip (consume_opt_none hreturn), consume_seqs_one]
  exact consume_named_call hu rfl

/-- The glyphs of a group of substitutions. -/
def withGlyphs (v : List Glyph) : List Glyph :=
  ⟨'[', .opener .square⟩ :: (plain "with ".toList ++ v ++ [⟨']', .closer .square⟩])

theorem consume_withGroup {v : List Glyph} (hv : Nested Glyph.cls v) :
    withGroup.consume (withGlyphs v) = some (withGlyphs v).length := by
  have hinner : Nested Glyph.cls (plain "with ".toList ++ v) :=
    (nested_plain (by decide)).append hv
  have hstarts : Text.startsWith (Glyph.text (withGlyphs v)) ('[' :: "with ".toList) = true := rfl
  have hlength : (withGlyphs v).length = (plain "with ".toList ++ v).length + 2 := by
    simp [withGlyphs]
  rw [withGroup, consume, if_pos hstarts, hlength]
  exact consume_group (b := .square) rfl rfl hinner []

/-- Substitutions behind a space are read to their end. -/
theorem consume_parametersTail {v : List Glyph} (hv : Nested Glyph.cls v) :
    (seqs parametersTail).consume (⟨' ', .space⟩ :: withGlyphs v) =
      some (withGlyphs v).length.succ := by
  have hqualifiers : (opt (many (seqs [memberQualifier, opt spaces]))).consume (withGlyphs v) =
      some 0 := consume_of_withoutSymbol rfl (by decide)
  have harrow : (opt arrowReturn).consume (withGlyphs v) = some 0 :=
    consume_of_withoutSymbol rfl (by decide)
  have hspace : (opt spaces).consume (⟨' ', .space⟩ :: withGlyphs v) = some 1 := rfl
  rw [Nat.succ_eq_one_add]
  refine consume_seqs_cons hspace ?_
  rw [List.drop_succ_cons, List.drop_zero, consume_seqs_skip hqualifiers, consume_seqs_skip harrow,
    consume_seqs_one]
  exact consume_opt (consume_withGroup hv)

/-- The glyphs of an instantiation. -/
def instantiationGlyphs (u v : List Glyph) : List Glyph :=
  plain "void".toList ++ (⟨' ', .space⟩ :: callGlyphs u (⟨' ', .space⟩ :: withGlyphs v))

/-- **An instantiation is read to its end**, as a function. -/
theorem consume_instantiation {u v : List Glyph} (hu : Nested Glyph.cls u)
    (hv : Nested Glyph.cls v) :
    function.consume (instantiationGlyphs u v) = some (instantiationGlyphs u v).length := by
  set call := callGlyphs u (⟨' ', .space⟩ :: withGlyphs v) with hcall
  have hword : Word "void".toList := by decide
  have hparted : Parted (⟨' ', .space⟩ :: call) := by rintro g ⟨⟩; decide
  have hspaces : spaces.consume (⟨' ', .space⟩ :: call) = some 1 := rfl
  -- behind the space stands a name, and no mark of a reference
  have hmark : (seqs [spaces, anyWord referenceMarks]).consume (⟨' ', .space⟩ :: call) = none := by
    have hnone : (seqs [anyWord referenceMarks]).consume call = none :=
      consume_seqs_none (consume_anyWord_none word_consume (by rintro g ⟨⟩; decide) (by decide))
    exact consume_seqs_behind_none hspaces hnone
  have htail : (seqs typeTail).consume (⟨' ', .space⟩ :: call) = some 0 := by
    rw [typeTail, consume_seqs_skip rfl, consume_seqs_one]
    exact consume_opt_none hmark
  have htype : type.consume (instantiationGlyphs u v) = some 4 :=
    consume_type_of_word hword hparted (by decide) htail
  have hreturn : (seqs [type, spaces]).consume (instantiationGlyphs u v) = some 5 := by
    refine consume_seqs_cons htype (m := 1) ?_
    rw [consume_seqs_one]
    exact hspaces
  have hlength : (instantiationGlyphs u v).length = 5 + call.length := by
    simp [instantiationGlyphs, hcall]
    omega
  rw [instantiationGlyphs, consume_function_of_word hword hparted (by decide),
    ← instantiationGlyphs, hlength]
  refine consume_seqs_cons (consume_opt hreturn) ?_
  rw [consume_seqs_one]
  exact consume_named_call hu (consume_parametersTail hv)

end Corpus

end DiagLayout
