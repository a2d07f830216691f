import DiagLayout.Proofs.FoldedParts

/-!
# Expressions that fit

An expression that fits on the line of its quote is left as it is, and one that fits only on a line
of its own is moved there whole. Both tests, that of the whole expression and those of its groups,
go by the length of what is shown (`FoldOf.shownLength_eq`), so they agree (`FoldOf.layOut_eq_nil`).

Of a function that shows its substitutions this holds for the signature: the substitutions are on
lines of their own. A match starts with a symbol (`Match.kind?_zero`), so the line break in front of
the expression is always one in front of the substitutions.

The main result is `fitting_expression_left_alone`.
-/

namespace DiagLayout

/-! ### The start of a match -/

namespace Grammar

/-- What the grammar reads where no symbol starts, as far as this is settled. -/
def withoutSymbol : Grammar → Option (Option Nat)
  | empty => some (some 0)
  | fail => some none
  | seq g h =>
    match g.withoutSymbol with
    | some (some 0) => h.withoutSymbol
    | some none => some none
    | _ => none
  | alt g h =>
    match g.withoutSymbol with
    | some (some n) => some (some n)
    | some none => h.withoutSymbol
    | none => none
  | opt g => g.withoutSymbol.map fun r => some (r.getD 0)
  | many g =>
    match g.withoutSymbol with
    | some none => some none
    | _ => none
  | run .symbol => some none
  | word t => some (if t = [] then some 0 else none)
  | _ => none

theorem consume_of_withoutSymbol {gs : List Glyph} (hgs : runLength .symbol gs = 0) {g : Grammar} :
    ∀ {r : Option Nat}, g.withoutSymbol = some r → g.consume gs = r := by
  induction g with
  | empty | fail =>
    rintro r ⟨⟩
    rfl
  | seq g h ihg ihh =>
    intro r hr
    rw [withoutSymbol] at hr
    split at hr
    · next hg =>
      have hrest := ihh hr
      rw [consume, ihg hg]
      cases r <;> simp [hrest]
    · next hg =>
      cases hr
      rw [consume, ihg hg]
      rfl
    · cases hr
  | alt g h ihg ihh =>
    intro r hr
    rw [withoutSymbol] at hr
    split at hr
    · next hg =>
      cases hr
      rw [consume, ihg hg]
      rfl
    · next hg =>
      rw [consume, ihg hg, ihh hr]
      rfl
    · cases hr
  | opt g ih =>
    intro r hr
    obtain ⟨r', hg, rfl⟩ := Option.map_eq_some_iff.mp hr
    rw [consume, ih hg]
  | many g ih =>
    intro r hr
    rw [withoutSymbol] at hr
    split at hr
    · next hg =>
      cases hr
      rw [consume, ih hg]
      rfl
    · cases hr
  | run k =>
    intro r hr
    cases k <;> cases hr
    rw [consume, if_pos hgs]
  | word t =>
    rintro r ⟨⟩
    rw [consume, hgs]
    by_cases ht : t = []
    · simp [ht, Glyph.text]
    · simp [ht, Ne.symm ht, Glyph.text]
  | group c | groupWith c more =>
    intro r hr
    cases hr

end Grammar

/-- **A match starts with a symbol.** -/
theorem Match.kind?_zero {src : Source} {m : Match} (hm : Match.best? src = some m) :
    src.kind? 0 = some .symbol := by
  have hsome : m.reading.grammar.consume src ≠ none := by
    obtain ⟨n, hn, -⟩ := Grammar.parse_eq_true.mp (Match.parse_of_best? hm)
    rw [show src.drop 0 = src from rfl] at hn
    simp [hn]
  have hrefused : m.reading.grammar.withoutSymbol = some none := by
    cases m.reading <;> decide
  have hrun : 0 < runLength .symbol src :=
    Nat.pos_of_ne_zero fun h => hsome (Grammar.consume_of_withoutSymbol h hrefused)
  exact (Source.kind?_natCast src 0).trans (kind_of_lt_runLength hrun)

/-! ### The length of an expression -/

namespace FoldOf

section Length

variable {src : Source} {base stop : Nat} {level : Option Int} {hidden : List Placeholder}
  (h : FoldOf src base stop level hidden)
include h

theorem free_base : Free hidden base := fun p hp => Or.inl (Int.le_of_lt (h.inside p hp).1)

theorem free_stop : Free hidden stop := fun p hp => Or.inr (Int.le_of_lt (h.inside p hp).2.2)

/-- Without line breaks the placeholders can be laid over the text. -/
theorem layable_nil : Layable src.length [] hidden := by
  have hnone : Placed (hidden.map Placeholder.atom) 0 0 0 [] := .nil
  exact h.layable hnone (by omega) (by omega)

/-- The length that the layout takes all that is folded to have is that of what is shown of it. -/
theorem columns_eq (hle : base ≤ stop) : Atom.columns (hidden.map Placeholder.atom) ⟨base, stop⟩ =
    src.visibleLength hidden base stop := by
  have hlay := h.layable_nil
  rw [hlay.columns_eq h.free_base hle, Source.visibleLength,
    hlay.length_along_foldedAt src h.free_stop h.stop_le h.free_base hle]

end Length

variable {src : Source} {m : Match} {level : Option Int} {hidden : List Placeholder}

/-- **The length of an expression** is that of what is shown of it. -/
theorem shownLength_eq (h : FoldOf src 0 m.length level hidden) :
    Expression.shownLength m (hidden.map Placeholder.atom) =
      src.visibleLength hidden 0 m.length := by
  rw [← h.columns_eq (Nat.zero_le _), Atom.columns, Expression.shownLength]
  simp only [Int.natCast_zero, Int.sub_zero]
  refine List.foldl_ext _ _ _ fun n a ha => ?_
  obtain ⟨p, hp, rfl⟩ := List.mem_map.mp ha
  have hinside := h.inside p hp
  have hspan : p.atom.span = p.span := rfl
  rw [if_pos (by rw [hspan]; omega)]

/-- In front of what follows the match, its folded text shows what is shown of it. -/
theorem overlay_eq {text : Text} (h : FoldOf (Source.ofText text) 0 m.length level hidden) :
    overlay text [] hidden =
      (Source.ofText text).shownText hidden 0 m.length ++ text.drop m.length := by
  set src := Source.ofText text with hsrc
  have htext : src.text = text := Source.text_ofText text
  have hlen : src.text.length = src.length := List.length_map _
  have hle := h.stop_le
  -- behind the match nothing is hidden
  have hapart : Atom.Apart (hidden.map Placeholder.atom) m.length (src.length + 1) :=
    apart_atoms_iff.mpr fun p hp => Or.inl (Int.le_of_lt (h.inside p hp).2.2)
  have hrest : penText src.text [] hidden m.length (src.length + 1) = text.drop m.length := by
    rw [penText_quiet (by simp), along_foldedAt_apart src hapart h.layable_nil.span_lt,
      Source.window, List.take_of_length_le (by simp only [List.length_drop]; omega), Glyph.text,
      List.map_drop]
    exact congrArg (List.drop m.length) htext
  have hlay := h.layable_nil
  rw [← hlen] at hlay hrest
  have hoverlay : overlay src.text [] hidden = src.text.take 0 ++
      penText src.text [] hidden 0 m.length ++
        penText src.text [] hidden m.length (src.text.length + 1) :=
    hlay.overlay_eq_penText (by simp) (fun p hp => by have := h.inside p hp; omega)
      (Nat.zero_le _) (by omega)
  rw [hrest, penText_quiet (by simp), htext] at hoverlay
  exact hoverlay

end FoldOf

/-! ### The layout of an expression that fits -/

/-- The match is a function that shows the substitutions of the group `g`. -/
def Match.Shows (m : Match) (src : Source) (atoms : List Atom) (g : Extent) : Prop :=
  m.reading = .function ∧ src.substitutionGroup? m.extent = .ok (some g) ∧ isFolded g atoms = false

/-- The group is not at the start of the match. -/
theorem Match.Shows.start_pos {m : Match} {src : Source} {atoms : List Atom} {g : Extent}
    (h : m.Shows src atoms g) (hm : Match.best? src = some m) : 0 < g.start := by
  obtain ⟨-, hle, hbal⟩ := Match.balanced_of_best? hm
  obtain ⟨b, o, c, ho, hob, -⟩ := (Source.isSubstitutionGroup_of_found hbal hle h.2.1).groupAt
  by_contra hcon
  obtain hzero : g.start = 0 := by omega
  have hkind := Match.kind?_zero hm
  rw [show (0 : Int) = ((0 : Nat) : Int) from rfl, Source.kind?_natCast, ← hzero, ho] at hkind
  simp [Glyph.kind, hob, CharClass.kind] at hkind

section Fill

variable {src : Source} {m : Match} {level : Option Int} {hidden : List Placeholder}
  (hm : Match.best? src = some m) (h : FoldOf src 0 m.length level hidden)
include hm h

/-- Where no substitutions are shown, no line is broken in what fits. -/
theorem FoldOf.fill_eq_nil (hl : ∀ n ∈ level, 1 ≤ n)
    (hshows : ∀ g, ¬ m.Shows src (hidden.map Placeholder.atom) g) {indent : Int} {config : Config}
    (hfits : indent + src.visibleLength hidden 0 m.length ≤ config.width) :
    fill m.reading src m.extent indent config (hidden.map Placeholder.atom) = .ok [] := by
  obtain ⟨-, hle, hbal⟩ := Match.balanced_of_best? hm
  have hwhole : fillType src m.extent indent config (hidden.map Placeholder.atom) = .ok [] :=
    h.layOut_eq_nil (e := m.extent) hbal (Nat.le_refl _) (Nat.le_refl _)
      (Source.depthFrom_self_lt hl) (Int.le_of_lt config.indent_pos) hfits
  cases hr : m.reading with
  | type => exact hwhole
  | function =>
    obtain ⟨found, hfound, -⟩ := Source.exists_substitutionGroup? (e := m.extent) hbal hle
    rw [fill, fillFunction_eq_fillType hfound fun g hg => ?_]
    · exact hwhole
    · by_contra hcon
      exact hshows g ⟨hr, by rw [hfound, hg], by simpa using hcon⟩

/-- Where the substitutions of a group are shown, no line is broken in front of the group. -/
theorem FoldOf.exists_fill_behind (hsrc : src.Classed) (hl : ∀ n ∈ level, 1 ≤ n) {g : Extent}
    (hshows : m.Shows src (hidden.map Placeholder.atom) g) {indent : Int} {config : Config}
    (hfits : indent + src.visibleLength hidden 0 m.length ≤ config.width) :
    ∃ is, fill m.reading src m.extent indent config (hidden.map Placeholder.atom) = .ok is ∧
      ∀ i ∈ is, (g.start : Int) < i.offset := by
  obtain ⟨hr, hfound, hshown⟩ := hshows
  have hopen : ¬ isFolded g (hidden.map Placeholder.atom) = true := by simp [hshown]
  obtain ⟨-, hle, hbal⟩ := Match.balanced_of_best? hm
  have hg := Source.isSubstitutionGroup_of_found (e := m.extent) hbal hle hfound
  obtain ⟨hstart, hinterior, hstop⟩ := hg.bounds hsrc
  have hbefore : g.start ≤ m.length := by
    have : (Source.substitutionInterior g).stop < m.length := hstop
    omega
  have hsignature :
      fillType src ⟨0, g.start⟩ indent config (hidden.map Placeholder.atom) = .ok [] := by
    have hlength := src.visibleLength_append hidden (Nat.zero_le g.start) hbefore
    have hrest := src.visibleLength_nonneg hidden g.start m.length
    exact h.layOut_eq_nil (e := ⟨0, g.start⟩) hg.signature (Nat.le_refl _) hbefore
      (Source.depthFrom_self_lt hl) (Int.le_of_lt config.indent_pos) (by simp only; omega)
  have hdeep := h.hides.lt_of_not_isFolded (e := m.extent) hsrc hg hl hopen
  obtain ⟨iss, hiss, hplaced⟩ := exists_fillSubstitutions (e := m.extent) hsrc h.hides hg hle hdeep
    (indent + config.indent) config
  refine ⟨iss.flatten, ?_, fun i hi => (hplaced.bounds i hi).1⟩
  rw [hr, fill, fillFunction_of_parts hfound hopen hsignature hiss, List.nil_append]

end Fill

/-! ### Expressions that are left alone -/

/-- **What fits is left alone**: on the line of the quote, in column `column`, there is no line
break, and what fits only on a line of its own is moved there and not broken. -/
structure LeftAlone (quote : Span) (column width v : Int) (is : List Instruction) : Prop where
  fits : column + v ≤ width → is = []
  moved : width < column + v → v ≤ width → is = [⟨quote.start, 0⟩]

theorem LeftAlone.of_append {quote : Span} {column width v : Int} {own : Bool}
    {rest : List Instruction} (hown : own = true ↔ width < column + v)
    (hrest : (if own then 0 else column) + v ≤ width → rest = []) :
    LeftAlone quote column width v ((if own then [⟨quote.start, 0⟩] else []) ++ rest) := by
  cases own with
  | false =>
    refine ⟨fun hfits => by simpa using hrest hfits, fun hlong => ?_⟩
    exact absurd (hown.mpr hlong) Bool.false_ne_true
  | true =>
    have hlong := hown.mp rfl
    refine ⟨fun hfits => by omega, fun _ hv => ?_⟩
    rw [hrest (by simpa using hv)]
    rfl

/-- **An expression that fits is left alone.** Let `v` be the length of what is shown of the match.
The expression starts a line of its own iff it does not fit on that of its quote. If no
substitutions are shown, all its instructions are as `LeftAlone` says, and if they are, those in
front of them. -/
theorem fitting_expression_left_alone {text : Text} {m : Match}
    (hm : Match.best? (Source.ofText text) = some m) (quote : Span) (column : Nat) (config : Config)
    {level : Option Int} (hlevel : ∀ n ∈ level, 1 ≤ n) :
    let src := Source.ofText text
    ∃ regions folding e,
      src.regions m.extent = .ok regions ∧
      fold regions level config.placeholder = .ok folding ∧
      Expression.make text m quote column config level = .ok e ∧
      e.fold = folding.shift quote.start ∧
      ∃ shown : Text, overlay text [] folding.placeholders = shown ++ text.drop m.length ∧
        (e.ownLine = true ↔ config.width < column + shown.length) ∧
        ((∀ g, ¬ m.Shows src folding.atoms g) →
          LeftAlone quote column config.width shown.length e.instructions) ∧
        ∀ g, m.Shows src folding.atoms g →
          LeftAlone quote column config.width shown.length
            (e.instructions.filter fun i => i.offset < quote.start + g.start) := by
  intro src
  obtain ⟨e, hmake, -⟩ := Expression.exists_make hm quote column config hlevel
  obtain ⟨regions, folding, is, hregions, hfold, hfill, hown, his, hshift⟩ :=
    Expression.exists_of_make hmake
  have hF := Match.foldOf_of_fold hm hregions hfold
  have hlength : ((src.shownText folding.placeholders 0 m.length).length : Int) =
      src.visibleLength folding.placeholders 0 m.length := by
    rw [Source.shownText, Glyph.text, List.length_map]
    rfl
  have hlong : e.ownLine = true ↔ config.width <
      column + (src.shownText folding.placeholders 0 m.length).length := by
    rw [hown, decide_eq_true_iff, hlength, ← hF.shownLength_eq]
    rfl
  refine ⟨regions, folding, e, hregions, hfold, hmake, hshift,
    src.shownText folding.placeholders 0 m.length, hF.overlay_eq, hlong, fun hshows => ?_,
    fun g hshows => ?_⟩
  · rw [his]
    refine .of_append hlong fun hfits => ?_
    rw [hlength] at hfits
    have hnone := hF.fill_eq_nil hm hlevel hshows hfits
    obtain rfl : is = [] := Except.ok.inj (hfill.symm.trans hnone)
    rfl
  · -- the line break in front of the expression stands in front of the group
    have hfirst : ((if e.ownLine = true then [⟨quote.start, 0⟩] else []) :
        List Instruction).filter (fun i => i.offset < quote.start + g.start) =
          if e.ownLine = true then [⟨quote.start, 0⟩] else [] := by
      have hpos := hshows.start_pos hm
      split_ifs <;> simp [hpos]
    rw [his, List.filter_append, hfirst]
    refine .of_append hlong fun hfits => ?_
    rw [hlength] at hfits
    obtain ⟨is', hbehind, hoffsets⟩ :=
      hF.exists_fill_behind hm (Source.classed_ofText text) hlevel hshows hfits
    obtain rfl : is = is' := Except.ok.inj (hfill.symm.trans hbehind)
    refine List.filter_eq_nil_iff.mpr fun i hi => ?_
    obtain ⟨j, hj, rfl⟩ := List.mem_map.mp hi
    have := hoffsets j hj
    change ¬ decide (j.offset + quote.start < quote.start + g.start) = true
    rw [decide_eq_true_iff]
    omega

/-- Folded, `pair<…> &` has 9 columns: from column 91 on it just fits into the width of 100, and
from the next one on it is moved. A function that shows its substitutions is moved with them. -/
theorem fitting_expression_left_alone_at_width :
    (∀ column : Nat, ∃ e, Expression.make "pair<int, long> &".toList ⟨.type, 17⟩ ⟨40, 57⟩ column
        default (some 1) = .ok e ∧ LeftAlone ⟨40, 57⟩ column 100 9 e.instructions) ∧
      ∃ e, Expression.make "f(T) [with T = int]".toList ⟨.function, 19⟩ ⟨40, 59⟩ 82 default none =
        .ok e ∧ e.instructions.filter (fun i => i.offset < 45) = [⟨40, 0⟩] := by
  constructor
  · intro column
    have hbest : Match.best? (Source.ofText "pair<int, long> &".toList) = some ⟨.type, 17⟩ := by
      decide +kernel
    obtain ⟨regions, folding, e, hregions, hfold, hmake, -, shown, hshown, -, hleft, -⟩ :=
      fitting_expression_left_alone hbest ⟨40, 57⟩ column default
        (show ∀ n ∈ some (1 : Int), 1 ≤ n by simp)
    have hover : overlay "pair<int, long> &".toList [] folding.placeholders = "pair<…> &".toList :=
      eq_of_fold_map (fun f => overlay _ [] f.placeholders) hregions hfold (by decide +kernel)
    have hlength : shown.length = 9 := by
      rw [hover] at hshown
      simpa using congrArg List.length hshown.symm
    rw [hlength] at hleft
    exact ⟨e, hmake, hleft (by rintro g ⟨⟨⟩, -⟩)⟩
  · have hbest : Match.best? (Source.ofText "f(T) [with T = int]".toList) =
        some ⟨.function, 19⟩ := by decide +kernel
    obtain ⟨regions, folding, e, hregions, hfold, hmake, -, shown, hshown, -, -, hleft⟩ :=
      fitting_expression_left_alone hbest ⟨40, 59⟩ 82 default
        (show ∀ n ∈ none, (1 : Int) ≤ n by simp)
    have hshows : Match.Shows ⟨.function, 19⟩ (Source.ofText "f(T) [with T = int]".toList)
        folding.atoms ⟨5, 19⟩ :=
      ⟨rfl, by decide +kernel,
        eq_of_fold_map (fun f => isFolded _ f.atoms) hregions hfold (by decide +kernel)⟩
    have hover : overlay "f(T) [with T = int]".toList [] folding.placeholders =
        "f(T) [with T = int]".toList :=
      eq_of_fold_map (fun f => overlay _ [] f.placeholders) hregions hfold (by decide +kernel)
    have hlength : shown.length = 19 := by
      rw [hover] at hshown
      simpa using congrArg List.length hshown.symm
    have hmoved := (hleft _ hshows).moved
    rw [hlength] at hmoved
    exact ⟨e, hmake, hmoved (by decide) (by decide)⟩

end DiagLayout
