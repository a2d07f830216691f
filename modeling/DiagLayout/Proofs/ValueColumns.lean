import DiagLayout.Proofs.FoldedParts

/-!
# The columns of values

The value of a substitution is laid out from the column behind its label, the name with the equals
sign. The layout takes the label to be as long as it is in the source. Where something in the label
is folded it is shown with another length, and the value is not shown where it was laid out.

* `FoldOf.exists_fillFunction_parts`: the instructions of a function are those of its parts;
* `ValueLine`: which of them are on the line of a substitution (`FoldOf.exists_valueLine`);
* `ValueLine.indent_eq`: the lines broken in the value are indented from behind the label;
* `ValueLine.endColumn_eq`: the column at which the value is shown.

The main result is `value_indented_from_column_iff`.
-/

namespace DiagLayout

theorem mem_of_mapM {α β : Type} {f : α → Except Fault β} {l : List α} {bs : List β}
    (h : l.mapM f = .ok bs) {b : β} : b ∈ bs ↔ ∃ a ∈ l, f a = .ok b := by
  induction l generalizing bs with
  | nil =>
    cases h
    simp
  | cons a l ih =>
    rw [List.mapM_cons] at h
    obtain ⟨b', hb', h⟩ := exists_of_bind_eq_ok h
    obtain ⟨bs', hbs', h⟩ := exists_of_bind_eq_ok h
    cases h
    rw [List.mem_cons, ih hbs', List.exists_mem_cons_iff, hb', Except.ok.injEq, eq_comm]

/-- The only instruction at its offset. -/
theorem filter_offset_eq {is : List Instruction} (h : is.Pairwise fun i i' => i.offset < i'.offset)
    {i : Instruction} (hi : i ∈ is) : (is.filter fun i' => i'.offset == i.offset) = [i] := by
  have hpw := h.filter fun i' => i'.offset == i.offset
  have hmem : ∀ i' ∈ is.filter (fun i' => i'.offset == i.offset), i'.offset = i.offset :=
    fun i' hi' => by simpa using (List.mem_filter.mp hi').2
  have hself : i ∈ is.filter fun i' => i'.offset == i.offset := by simp [hi]
  generalize is.filter (fun i' => i'.offset == i.offset) = l at hpw hmem hself
  rcases l with _ | ⟨a, _ | ⟨b, l⟩⟩
  · cases hself
  · rw [List.mem_singleton.mp hself]
  · have hlt := (List.pairwise_cons.mp hpw).1 b List.mem_cons_self
    rw [hmem a List.mem_cons_self, hmem b (List.mem_cons_of_mem _ List.mem_cons_self)] at hlt
    omega

/-- A value stands behind the start of its substitution. -/
theorem Source.start_lt_of_valuePosition? {src : Source} {sub : Extent}
    (h : src.Balanced sub.start sub.stop) (hlen : sub.stop ≤ src.length) {value : Nat}
    (hv : src.valuePosition? sub = some value) : sub.start < value := by
  obtain ⟨f, hheads, hl⟩ := exists_heads h hlen
  unfold valuePosition? at hv
  rw [hheads] at hv
  obtain ⟨t, ht, rfl⟩ := Option.map_eq_some_iff.mp hv
  have hword := f.heads_subset (List.mem_of_find?_eq_some ht)
  have hstart := hl.le_start t hword
  have hstop := (hl.formed t hword).lt_stop
  omega

/-- The number of broken groups of the stretch around a line that starts at the offset. -/
noncomputable def Source.brokenGroups (src : Source) (e : Extent) (is : List Instruction)
    (x : Int) : Nat :=
  Set.ncard {p : Nat | ∃ q, src.GroupIn e p q ∧ (p : Int) < x ∧ x ≤ q ∧ BrokenAt is (p + 1)}

/-- What is shown of a stretch in which nothing is folded. -/
theorem Source.shownText_of_apart (src : Source) {hidden : List Placeholder} {i j : Nat}
    (h : Atom.Apart (hidden.map Placeholder.atom) i j)
    (hne : ∀ p ∈ hidden, p.span.start < p.span.stop) :
    src.shownText hidden i j = Glyph.text (src.window ⟨i, j⟩) := by
  rw [shownText, along_foldedAt_apart src h hne]

/-! ### The line of a substitution -/

/-- **The line of a substitution with a value**, which starts with `indent` spaces: of the
instructions `is` of the function, there are the one that starts the line and the instructions
`inner` of the value. These follow the rule for a layout from the column behind the label, as long
as it is in the source. -/
structure ValueLine (src : Source) (hidden : List Placeholder) (is : List Instruction)
    (config : Config) (indent : Int) (sub : Extent) (value : Nat) (inner : List Instruction) :
    Prop where
  lt : sub.start < value
  mem_iff : ∀ i : Instruction, (sub.start : Int) ≤ i.offset → i.offset ≤ sub.stop →
    (i ∈ is ↔ i = ⟨sub.start, indent⟩ ∨ i ∈ inner)
  bounds : ∀ i ∈ inner, (value : Int) < i.offset
  rule : FillRule src ⟨value, sub.stop⟩ config.width config.indent (indent + (value - sub.start))
    hidden inner

namespace ValueLine

variable {src : Source} {hidden : List Placeholder} {is inner : List Instruction} {config : Config}
  {indent : Int} {sub : Extent} {value : Nat}
  (h : ValueLine src hidden is config indent sub value inner)
include h

/-- Behind the start of the value only its own lines are broken. -/
theorem mem_inner_iff {i : Instruction} (hi : (value : Int) ≤ i.offset) (hj : i.offset ≤ sub.stop) :
    i ∈ is ↔ i ∈ inner := by
  have hlt := h.lt
  rw [h.mem_iff i (by omega) hj, or_iff_right]
  rintro rfl
  simp only at hi
  omega

theorem brokenAt_iff {x : Int} (hi : (value : Int) ≤ x) (hj : x ≤ sub.stop) :
    BrokenAt is x ↔ BrokenAt inner x := by
  refine exists_congr fun i => ?_
  constructor
  · rintro ⟨hmem, rfl⟩
    exact ⟨(h.mem_inner_iff hi hj).mp hmem, rfl⟩
  · rintro ⟨hmem, rfl⟩
    exact ⟨(h.mem_inner_iff hi hj).mpr hmem, rfl⟩

/-- The broken groups of the value are those of its own layout. -/
theorem brokenGroups_eq (x : Int) : src.brokenGroups ⟨value, sub.stop⟩ is x =
    src.brokenGroups ⟨value, sub.stop⟩ inner x := by
  refine congrArg Set.ncard (Set.ext fun p => exists_congr fun q => and_congr_right fun hg => ?_)
  obtain ⟨hgroup, hp, hq⟩ := hg
  have hlt := hgroup.lt
  simp only at hp hq
  rw [h.brokenAt_iff (by omega) (by omega)]

/-- **The lines broken in the value** are indented from the column behind the label, as long as it
is in the source. -/
theorem indent_eq {i : Instruction} (hi : i ∈ is) (hv : (value : Int) ≤ i.offset)
    (hj : i.offset ≤ sub.stop) : i.indent = indent + (value - sub.start) +
      config.indent * src.brokenGroups ⟨value, sub.stop⟩ is i.offset := by
  rw [h.brokenGroups_eq]
  exact h.rule.indented i ((h.mem_inner_iff hv hj).mp hi)

/-- **What is written in front of the value**, on its line: the indent and the label, as it is
shown. -/
theorem penText_eq (hinc : is.Pairwise fun i i' => i.offset < i'.offset)
    (hstop : value ≤ sub.stop) :
    penText src.text is hidden sub.start value =
      '\n' :: (List.replicate indent.toNat ' ' ++ src.shownText hidden sub.start value) := by
  have hlt := h.lt
  have hfirst : (⟨sub.start, indent⟩ : Instruction) ∈ is :=
    (h.mem_iff _ (Int.le_refl _) (by simp only; omega)).mpr (Or.inl rfl)
  have hquiet : ∀ i ∈ is, i.offset < ((sub.start + 1 : Nat) : Int) ∨ (value : Int) ≤ i.offset := by
    intro i hi
    by_contra hcon
    rcases (h.mem_iff i (by omega) (by omega)).mp hi with rfl | hinner
    · simp only at hcon
      omega
    · have := h.bounds i hinner
      omega
  rw [penText_append (Nat.le_succ sub.start) hlt, penText_succ, penText_quiet hquiet,
    filter_offset_eq hinc hfirst, Source.shownText, along_succ hlt]
  simp [Piece.shown, Glyph.text]

/-- The column at which the value is shown. -/
theorem endColumn_eq (hinc : is.Pairwise fun i i' => i.offset < i'.offset)
    (hstop : value ≤ sub.stop) (hindent : 0 ≤ indent)
    (hline : '\n' ∉ src.shownText hidden sub.start value) :
    ((penText src.text is hidden 0 value).endColumn : Int) =
      indent + (src.shownText hidden sub.start value).length := by
  have hplain : '\n' ∉ List.replicate indent.toNat ' ' ++ src.shownText hidden sub.start value := by
    simp [List.mem_replicate, hline]
  rw [penText_append (Nat.zero_le sub.start) (Nat.le_of_lt h.lt), h.penText_eq hinc hstop,
    Text.endColumn_line hplain, List.length_append, List.length_replicate]
  omega

end ValueLine

/-! ### The instructions of a function -/

section Function

variable {src : Source} {m : Match} {level : Option Int} {hidden : List Placeholder} {g : Extent}
  (hsrc : src.Classed) (hF : FoldOf src 0 m.length level hidden)
  (hg : src.IsSubstitutionGroup m.extent g) (hlevel : ∀ n ∈ level, 2 ≤ n)
include hsrc hF hg hlevel

theorem FoldOf.isFolded_eq_false : isFolded g (hidden.map Placeholder.atom) = false := by
  have hl : ∀ n ∈ level, 1 ≤ n := fun n hn => by have := hlevel n hn; omega
  rw [← Bool.not_eq_true, hF.hides.isFolded_iff (e := m.extent) hsrc hg hl]
  rintro rfl
  exact absurd (hlevel 1 rfl) (by decide)

/-- Where the substitutions of a function lie, and how deep. -/
theorem FoldOf.substitution_spec {sub : Extent}
    (hsub : sub ∈ src.substitutions (Source.substitutionInterior g)) :
    src.Balanced sub.start sub.stop ∧ g.start < sub.start ∧ sub.stop < m.length ∧
      ∀ n ∈ level, src.depthFrom 0 sub.start < n := by
  obtain ⟨hbal, hstart, hstop, hdepth⟩ := hg.substitution_spec hsrc hF.stop_le hsub
  refine ⟨hbal, hstart, hstop, fun n hn => ?_⟩
  rw [show src.depthFrom 0 sub.start = 1 from hdepth]
  exact hlevel n hn

/-- **The instructions of a function are those of its parts**: of the signature, which is in front
of the substitutions, and of each substitution. -/
theorem FoldOf.exists_fillFunction_parts (hbal : src.Balanced 0 m.length)
    (hfound : src.substitutionGroup? m.extent = .ok (some g)) (indent : Int) (config : Config) :
    ∃ is signature : List Instruction,
      fillFunction src m.extent indent config (hidden.map Placeholder.atom) = .ok is ∧
      Placed (hidden.map Placeholder.atom) 0 m.length indent is ∧
      (∀ i ∈ signature, i.offset ≤ g.start) ∧
      ∀ i, i ∈ is ↔ i ∈ signature ∨
        ∃ sub ∈ src.substitutions (Source.substitutionInterior g), ∃ line,
          fillSubstitution src (indent + config.indent) config (hidden.map Placeholder.atom) sub =
            .ok line ∧ i ∈ line := by
  have hl : ∀ n ∈ level, 1 ≤ n := fun n hn => by have := hlevel n hn; omega
  have hlen := hF.stop_le
  have hopen : ¬ isFolded g (hidden.map Placeholder.atom) = true := by
    simp [hF.isFolded_eq_false hsrc hg hlevel]
  have hstop : g.stop ≤ m.length := hg.stop_le
  have hlt := hg.groupAt.lt
  obtain ⟨signature, hsignature, hps⟩ := exists_fillType hF.hides hg.signature
    (show g.start ≤ m.length by omega) hlen hl indent config
  obtain ⟨iss, hiss, -⟩ := exists_fillSubstitutions (e := m.extent) hsrc hF.hides hg hlen
    (fun n hn => by have := hlevel n hn; omega) (indent + config.indent) config
  have hfill := fillFunction_of_parts (e := m.extent) hfound hopen hsignature hiss
  obtain ⟨is, his, hplaced⟩ := exists_fillFunction (e := m.extent) hsrc hF.hides hbal hlen hl indent
    config
  obtain rfl : is = signature ++ iss.flatten := Except.ok.inj (his.symm.trans hfill)
  refine ⟨_, signature, hfill, hplaced, fun i hi => (hps.bounds i hi).2, fun i => ?_⟩
  rw [List.mem_append, List.mem_flatten]
  refine or_congr_right ?_
  constructor
  · rintro ⟨line, hline, hi⟩
    obtain ⟨sub, hsub, hfilled⟩ := (mem_of_mapM hiss).mp hline
    exact ⟨sub, hsub, line, hfilled, hi⟩
  · rintro ⟨sub, hsub, line, hfilled, hi⟩
    exact ⟨line, (mem_of_mapM hiss).mpr ⟨sub, hsub, hfilled⟩, hi⟩

/-- A line is that of the substitution in which one of its instructions lies. -/
theorem FoldOf.eq_of_mem_line {indent : Int} {config : Config} {sub sub' : Extent}
    (hsub : sub ∈ src.substitutions (Source.substitutionInterior g))
    (hsub' : sub' ∈ src.substitutions (Source.substitutionInterior g)) {line : List Instruction}
    (hline : fillSubstitution src indent config (hidden.map Placeholder.atom) sub' = .ok line)
    {i : Instruction} (hi : i ∈ line) (hstart : (sub.start : Int) ≤ i.offset)
    (hstop : i.offset ≤ sub.stop) : sub' = sub := by
  have hlen := hF.stop_le
  obtain ⟨hbal, -, hstop', hdepth⟩ := hF.substitution_spec hsrc hg hlevel hsub'
  obtain ⟨line', hline', hplaced⟩ := exists_fillSubstitution hF.hides hbal (Nat.zero_le _)
    (Nat.le_of_lt hstop') hlen hdepth indent config
  obtain rfl : line' = line := Except.ok.inj (hline'.symm.trans hline)
  have hbounds := hplaced.bounds i hi
  by_contra hne
  have hapart := rel_or_rel_of_pairwise (hg.pairwise_substitutions hsrc hlen) hsub' hsub hne
  omega

/-- **The line of a substitution with a value**: one instruction starts it, and the others lay out
the value from the column behind the label, as long as it is in the source. -/
theorem FoldOf.exists_fillSubstitution_value (indent : Int) (config : Config) {sub : Extent}
    (hsub : sub ∈ src.substitutions (Source.substitutionInterior g)) {value : Nat}
    (hv : src.valuePosition? sub = some value) : ∃ inner : List Instruction,
      fillSubstitution src indent config (hidden.map Placeholder.atom) sub =
        .ok (⟨sub.start, indent⟩ :: inner) ∧
      (∀ i ∈ inner, (value : Int) < i.offset) ∧
      FillRule src ⟨value, sub.stop⟩ config.width config.indent (indent + (value - sub.start))
        hidden inner := by
  have hlen := hF.stop_le
  obtain ⟨hbal, -, hstop, hdepth⟩ := hF.substitution_spec hsrc hg hlevel hsub
  obtain ⟨hbefore, hvalue⟩ := Source.valuePosition?_spec hbal (by omega) hv
  obtain ⟨f, hword, hlayOut, hplaced, hlay, hfilled⟩ := hF.exists_filled (e := ⟨value, sub.stop⟩)
    hvalue (Nat.zero_le _) (Nat.le_of_lt hstop) (by rwa [hbefore.depthFrom_eq (Nat.zero_le _)])
    ⟨hidden.map Placeholder.atom, config.width, config.indent⟩ rfl (Int.le_of_lt config.indent_pos)
    (indent + (value - sub.start))
  refine ⟨_, ?_, fun i hi => (hplaced.bounds i hi).1, hfilled.fillRule hword rfl hlay⟩
  rw [fillSubstitution, hv]
  exact congrArg (· >>= _) hlayOut

/-- Of the instructions of a function, those in a substitution are those of its line. -/
theorem FoldOf.exists_valueLine {indent : Int} {config : Config} {is signature : List Instruction}
    (hsignature : ∀ i ∈ signature, i.offset ≤ g.start)
    (hmem : ∀ i, i ∈ is ↔ i ∈ signature ∨
      ∃ sub ∈ src.substitutions (Source.substitutionInterior g), ∃ line,
        fillSubstitution src (indent + config.indent) config (hidden.map Placeholder.atom) sub =
          .ok line ∧ i ∈ line)
    {sub : Extent} (hsub : sub ∈ src.substitutions (Source.substitutionInterior g)) {value : Nat}
    (hv : src.valuePosition? sub = some value) :
    ∃ inner, ValueLine src hidden is config (indent + config.indent) sub value inner := by
  have hlen := hF.stop_le
  obtain ⟨hbal, hstart, hstop, -⟩ := hF.substitution_spec hsrc hg hlevel hsub
  obtain ⟨inner, hline, hbounds, hrule⟩ :=
    hF.exists_fillSubstitution_value hsrc hg hlevel (indent + config.indent) config hsub hv
  refine ⟨inner, Source.start_lt_of_valuePosition? hbal (by omega) hv, fun i hi hj => ?_, hbounds,
    hrule⟩
  rw [hmem, ← List.mem_cons]
  constructor
  · rintro (hi' | ⟨sub', hsub', line, hline', hi'⟩)
    · have := hsignature i hi'
      omega
    · obtain rfl := hF.eq_of_mem_line hsrc hg hlevel hsub hsub' hline' hi' hi hj
      rw [hline] at hline'
      exact Except.ok.inj hline' ▸ hi'
  · exact fun hi' => Or.inr ⟨sub, hsub, _, hline, hi'⟩

end Function

/-- **Values are laid out behind their labels.** Where a match has a group of substitutions and no
level below the second is folded, the group is shown and the function is laid out. The lines broken
in a value are indented from the column behind a label as long as it is in the source. What is
written in front of the value ends behind the label as it is shown. So they are indented from the
column at which the value is shown just if this is the column behind a label of full length; for a
label that is shown on one line, just if it is shown in its full length, as it is where nothing in
it is folded. -/
theorem value_indented_from_column_iff {text : Text} {m : Match}
    (hm : Match.best? (Source.ofText text) = some m) {g : Extent}
    (hg : (Source.ofText text).substitutionGroup? m.extent = .ok (some g)) {level : Option Int}
    (hlevel : ∀ n ∈ level, 2 ≤ n) (placeholder : Text) {indent : Int} (hindent : 0 ≤ indent)
    (config : Config) :
    let src := Source.ofText text
    ∃ regions folding is, src.regions m.extent = .ok regions ∧
      fold regions level placeholder = .ok folding ∧ isFolded g folding.atoms = false ∧
      fillFunction src m.extent indent config folding.atoms = .ok is ∧
      ∀ sub ∈ src.substitutions (Source.substitutionInterior g), ∀ value,
        src.valuePosition? sub = some value →
        let written := penText text is folding.placeholders
        let label := src.shownText folding.placeholders sub.start value
        let column : Int := (written 0 value).endColumn
        let further := fun i : Instruction =>
          config.indent * src.brokenGroups ⟨value, sub.stop⟩ is i.offset
        overlay text is folding.placeholders = written 0 value ++ written value (text.length + 1) ∧
          (Atom.Apart folding.atoms sub.start value →
            label = Glyph.text (src.window ⟨sub.start, value⟩) ∧
              (label.length : Int) = value - sub.start) ∧
          (∀ i ∈ is, (value : Int) ≤ i.offset → i.offset ≤ sub.stop →
            i.indent = indent + config.indent + (value - sub.start) + further i) ∧
          (∀ i ∈ is, (value : Int) ≤ i.offset → i.offset ≤ sub.stop →
            (i.indent = column + further i ↔
              column = indent + config.indent + (value - sub.start))) ∧
          ('\n' ∉ label → column = indent + config.indent + label.length ∧
            ∀ i ∈ is, (value : Int) ≤ i.offset → i.offset ≤ sub.stop →
              (i.indent = column + further i ↔ (label.length : Int) = value - sub.start)) := by
  intro src
  have hsrc : src.Classed := Source.classed_ofText text
  have htext : src.text = text := Source.text_ofText text
  have hlength : src.text.length = src.length := List.length_map _
  obtain ⟨-, hlen, hbal⟩ : _ ∧ m.length ≤ src.length ∧ _ := Match.balanced_of_best? hm
  have hsubs := Source.isSubstitutionGroup_of_found (e := m.extent) hbal hlen hg
  obtain ⟨regions, folding, hregions, hfold, -⟩ := Match.exists_fold hm
    (fun n hn => show 1 ≤ n by have := hlevel n hn; omega) placeholder
  have hF := Match.foldOf_of_fold hm hregions hfold
  obtain ⟨is, signature, hfill, hplaced, hsignature, hmem⟩ :=
    hF.exists_fillFunction_parts hsrc hsubs hlevel hbal hg indent config
  have hlay : Layable src.text.length is folding.placeholders := by
    rw [hlength]
    exact hF.layable hplaced (by omega) (Int.le_refl _)
  refine ⟨regions, folding, is, hregions, hfold, hF.isFolded_eq_false hsrc hsubs hlevel, hfill,
    fun sub hsub value hv => ?_⟩
  intro written label column further
  obtain ⟨hbalsub, hstart, hstop, -⟩ := hF.substitution_spec hsrc hsubs hlevel hsub
  obtain ⟨-, hvalue⟩ := Source.valuePosition?_spec hbalsub (by omega) hv
  have hle := hvalue.le
  obtain ⟨inner, hline⟩ := hF.exists_valueLine hsrc hsubs hlevel hsignature hmem hsub hv
  have hrendered : overlay text is folding.placeholders =
      written 0 value ++ written value (text.length + 1) := by
    have := hlay.overlay_eq_penText (x := value)
      (fun i hi => Int.le_of_lt (hplaced.bounds i hi).1)
      (fun p hp => Int.le_of_lt (hF.inside p hp).1) (Nat.zero_le _) (by omega)
    rwa [htext] at this
  have hindented : ∀ i ∈ is, (value : Int) ≤ i.offset → i.offset ≤ sub.stop →
      i.indent = indent + config.indent + (value - sub.start) + further i :=
    fun i hi => hline.indent_eq hi
  have hcolumn : '\n' ∉ label → column = indent + config.indent + label.length := by
    have hunit := config.indent_pos
    have := hline.endColumn_eq hlay.increasing hle (by omega)
    rwa [htext] at this
  refine ⟨hrendered, fun hapart => ?_, hindented, fun i hi h1 h2 => ?_,
    fun hplain => ⟨hcolumn hplain, fun i hi h1 h2 => ?_⟩⟩
  · have hlabel := src.shownText_of_apart hapart hlay.span_lt
    refine ⟨hlabel, ?_⟩
    have hlt := hline.lt
    rw [show label = _ from hlabel, Glyph.text, List.length_map,
      src.length_window ⟨sub.start, value⟩ (show value ≤ src.length by omega)]
    simp only
    omega
  · rw [hindented i hi h1 h2]
    omega
  · rw [hindented i hi h1 h2, hcolumn hplain]
    omega

/-- At the second level `T = Bar<…>` keeps its label, and its value, shown at column 6, is indented
from there. The label of `A<…>::U = C<…>` is shown shorter than it is, and its value is not indented
from column 12, at which it is shown. -/
theorem value_indented_from_column_iff_two :
    let text := "f(T) [with T = Bar<char>; A<int>::U = C<char>]".toList
    let src := Source.ofText text
    ∃ regions folding is, src.regions ⟨0, 46⟩ = .ok regions ∧
      fold regions (some 2) ['…'] = .ok folding ∧
      fillFunction src ⟨0, 46⟩ 0 { width := 10 } folding.atoms = .ok is ∧
      (⟨19, 8⟩ ∈ is ∧ (penText text is folding.placeholders 0 15).endColumn = 6 ∧
        (8 : Int) = 6 + 2 * src.brokenGroups ⟨15, 24⟩ is 19) ∧
      (⟨40, 16⟩ ∈ is ∧ (penText text is folding.placeholders 0 38).endColumn = 12 ∧
        (16 : Int) ≠ 12 + 2 * src.brokenGroups ⟨38, 45⟩ is 40) := by
  intro text src
  obtain ⟨hbest, hgroup, hsubs, hvalue, hvalue'⟩ : Match.best? src = some ⟨.function, 46⟩ ∧
      src.substitutionGroup? ⟨0, 46⟩ = .ok (some ⟨5, 46⟩) ∧
      src.substitutions ⟨11, 45⟩ = [⟨11, 24⟩, ⟨26, 45⟩] ∧
      src.valuePosition? ⟨11, 24⟩ = some 15 ∧ src.valuePosition? ⟨26, 45⟩ = some 38 := by
    decide +kernel
  obtain ⟨regions, folding, is, hregions, hfold, -, hfill, hvalues⟩ :=
    value_indented_from_column_iff hbest hgroup (show ∀ n ∈ some (2 : Int), 2 ≤ n by simp) ['…']
      (Int.le_refl 0) { width := 10 }
  have hview := eq_of_fold_map
    (a := (.ok [⟨11, 2⟩, ⟨19, 8⟩, ⟨26, 2⟩, ⟨40, 16⟩], "T = ".toList, "A<…>::U = ".toList))
    (fun f => (fillFunction src ⟨0, 46⟩ 0 { width := 10 } f.atoms,
      src.shownText f.placeholders 11 15, src.shownText f.placeholders 26 38)) hregions hfold
    (by decide +kernel)
  simp only [Prod.mk.injEq] at hview
  obtain ⟨his, hlabel, hlabel'⟩ := hview
  obtain rfl := Except.ok.inj (hfill.symm.trans his)
  rw [show Source.substitutionInterior ⟨5, 46⟩ = ⟨11, 45⟩ from rfl, hsubs] at hvalues
  obtain ⟨-, -, -, -, hfirst⟩ := hvalues ⟨11, 24⟩ (by simp) 15 hvalue
  obtain ⟨-, -, -, -, hsecond⟩ := hvalues ⟨26, 45⟩ (by simp) 38 hvalue'
  rw [hlabel] at hfirst
  rw [hlabel'] at hsecond
  obtain ⟨hcolumn, hiff⟩ := hfirst (by decide)
  obtain ⟨hcolumn', hiff'⟩ := hsecond (by decide)
  have h1 := hiff ⟨19, 8⟩ (by simp) (by decide) (by decide)
  have h2 := hiff' ⟨40, 16⟩ (by simp) (by decide) (by decide)
  rw [hcolumn] at h1
  rw [hcolumn'] at h2
  refine ⟨regions, folding, _, hregions, hfold, hfill, ⟨by simp, ?_, h1.mpr rfl⟩, by simp, ?_, ?_⟩
  · exact Int.ofNat.inj hcolumn
  · exact Int.ofNat.inj hcolumn'
  · exact fun h => absurd (h2.mp h) (by decide)

/-- **A folded label shifts its value.** The value of `A<…>::type = B<…>` is shown at column 15, and
the line broken in its one group is indented by 25 columns, not by 17. -/
theorem folded_label_shifts_value :
    let text := "f(T) [with A<int, long>::type = B<char, int>]".toList
    let src := Source.ofText text
    ∃ regions folding is, src.regions ⟨0, 45⟩ = .ok regions ∧
      fold regions (some 2) ['…'] = .ok folding ∧
      fillFunction src ⟨0, 45⟩ 0 { width := 10 } folding.atoms = .ok is ∧
      src.substitutions ⟨11, 44⟩ = [⟨11, 44⟩] ∧ src.valuePosition? ⟨11, 44⟩ = some 32 ∧
      overlay text is folding.placeholders =
        "f(T) [with \n  A<…>::type = B<\n                         …>]".toList ∧
      (penText text is folding.placeholders 0 32).endColumn = 15 ∧
      src.brokenGroups ⟨32, 44⟩ is 34 = 1 ∧ ⟨34, 25⟩ ∈ is ∧ ¬ ⟨34, 15 + 2 * 1⟩ ∈ is := by
  intro text src
  obtain ⟨hbest, hsubs, hvalue, hend⟩ : Match.best? src = some ⟨.function, 45⟩ ∧
      src.substitutions ⟨11, 44⟩ = [⟨11, 44⟩] ∧ src.valuePosition? ⟨11, 44⟩ = some 32 ∧
      groupEnd? (src.drop 33) = some 10 := by
    decide +kernel
  obtain ⟨regions, folding, hregions, hfold, -⟩ :=
    Match.exists_fold hbest (show ∀ n ∈ some (2 : Int), 1 ≤ n by simp) ['…']
  let is : List Instruction := [⟨11, 2⟩, ⟨34, 25⟩]
  have hview := eq_of_fold_map
    (a := (.ok is, "f(T) [with \n  A<…>::type = B<\n                         …>]".toList, 15))
    (fun f => (fillFunction src ⟨0, 45⟩ 0 { width := 10 } f.atoms, overlay text is f.placeholders,
      (penText text is f.placeholders 0 32).endColumn)) hregions hfold (by decide +kernel)
  simp only [Prod.mk.injEq] at hview
  obtain ⟨hfill, hoverlay, hcolumn⟩ := hview
  refine ⟨regions, folding, is, hregions, hfold, hfill, hsubs, hvalue, hoverlay, hcolumn, ?_,
    by simp [is], by simp [is]⟩
  -- the group of the value is the only one broken in it
  refine Set.ncard_eq_one.mpr ⟨33, Set.ext fun p => ⟨?_, ?_⟩⟩
  · rintro ⟨q, ⟨-, hp, -⟩, -, -, i, hi, hoffset⟩
    simp only [is, List.mem_cons, List.not_mem_nil, or_false] at hi
    simp only at hp
    rw [Set.mem_singleton_iff]
    rcases hi with rfl | rfl <;> simp only at hoffset <;> omega
  · rintro rfl
    have hgroup : src.GroupAt 33 43 := Source.groupAt_of_groupEnd? (p := 33) (d := 10) hend
    refine ⟨43, ⟨hgroup, ?_, ?_⟩, ?_, ?_, ⟨34, 25⟩, ?_, ?_⟩
    all_goals simp [is]

end DiagLayout
