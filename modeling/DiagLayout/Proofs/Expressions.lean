import DiagLayout.Expression
import DiagLayout.Proofs.Consumption
import DiagLayout.Proofs.Layout
import DiagLayout.Proofs.Substitutions

/-!
# The layout of an expression

A text that is recognised can always be laid out: `exists_fillFunction` and `exists_fill` for the
part that the match covers, `Expression.exists_make` for the whole expression. The instructions and
the placeholders that come out have their places in the quote (`Expression.WellPlaced`).

`Expression.of_make` says what can be read off an expression again: the quote, the match, the column
and the level it was made from.
-/

namespace DiagLayout

theorem exists_of_bind_eq_ok {α β : Type} {x : Except Fault α} {f : α → Except Fault β} {b : β}
    (h : x >>= f = .ok b) : ∃ a, x = .ok a ∧ f a = .ok b := by
  cases x with
  | error e => cases h
  | ok a => exact ⟨a, rfl, h⟩

/-! ### Filling -/

section Fill

variable {src : Source} {base stop : Nat} {level : Option Int} {atoms : List Atom}

/-- A substitution less deep than the level is laid out, with a line of its own first. -/
theorem exists_fillSubstitution (h : Hides src base stop level atoms) {sub : Extent}
    (hsub : src.Balanced sub.start sub.stop) (hb : base ≤ sub.start) (hj : sub.stop ≤ stop)
    (hlen : stop ≤ src.length) (hd : ∀ n ∈ level, src.depthFrom base sub.start < n) (indent : Int)
    (config : Config) : ∃ is, fillSubstitution src indent config atoms sub = .ok is ∧
      Placed atoms ((sub.start : Int) - 1) sub.stop indent is := by
  have hunit : 0 ≤ config.indent := Int.le_of_lt config.indent_pos
  have hle := hsub.le
  have hfirst : ∀ {is : List Instruction}, Placed atoms sub.start sub.stop indent is →
      Placed atoms ((sub.start : Int) - 1) sub.stop indent (⟨sub.start, indent⟩ :: is) := fun hp =>
    hp.cons (by simp only; omega) (by simp only; omega) (h.clear hd) (Int.le_refl _)
  unfold fillSubstitution
  cases hv : src.valuePosition? sub with
  | none =>
    obtain ⟨is, his, hp⟩ := exists_layOut h hsub hb hj hlen hd hunit
    exact ⟨_, congrArg (· >>= _) his, hfirst hp⟩
  | some value =>
    obtain ⟨hbefore, hvalue⟩ := Source.valuePosition?_spec hsub (by omega) hv
    have hle' := hbefore.le
    obtain ⟨is, his, hp⟩ := exists_layOut h (e := ⟨value, sub.stop⟩) hvalue
      (show base ≤ value by omega) hj hlen (by rwa [hbefore.depthFrom_eq hb]) hunit
    exact ⟨_, congrArg (· >>= _) his,
      hfirst (hp.widen (by simp only; omega) (Int.le_refl _) (by omega))⟩

/-- Layouts of stretches that are apart and increase, one after the other. -/
theorem exists_mapM_placed {fill : Extent → Except Fault (List Instruction)} {hi least : Int}
    {subs : List Extent} : ∀ {lo : Int}, lo ≤ hi →
      (∀ sub ∈ subs, lo < sub.start ∧ sub.start ≤ sub.stop ∧ (sub.stop : Int) ≤ hi ∧
        ∃ is, fill sub = .ok is ∧ Placed atoms ((sub.start : Int) - 1) sub.stop least is) →
      subs.Pairwise (fun sub sub' => sub.stop < sub'.start) →
      ∃ iss, subs.mapM fill = .ok iss ∧ Placed atoms lo hi least iss.flatten := by
  induction subs with
  | nil => intro lo _ _ _; exact ⟨[], rfl, .nil⟩
  | cons sub subs ih =>
    intro lo hlo hsubs hpw
    obtain ⟨hapart, hpw⟩ := List.pairwise_cons.mp hpw
    obtain ⟨h1, h2, h3, is, his, hp⟩ := hsubs sub List.mem_cons_self
    obtain ⟨iss, hiss, hps⟩ := ih h3 (fun sub' hsub' => by
      have hbelow := hapart sub' hsub'
      obtain ⟨-, h2', h3', h4'⟩ := hsubs sub' (List.mem_cons_of_mem _ hsub')
      exact ⟨by omega, h2', h3', h4'⟩) hpw
    refine ⟨is :: iss, by rw [List.mapM_cons, his, hiss]; rfl, ?_⟩
    exact (hp.widen (by omega) (Int.le_refl _) (Int.le_refl _)).append hps (by omega)
      (Int.le_refl _) h3

/-- A group of substitutions is folded at level one, and only there. -/
theorem Hides.lt_of_not_isFolded (hsrc : src.Classed) {e g : Extent}
    (h : Hides src e.start e.stop level atoms) (hg : src.IsSubstitutionGroup e g)
    (hl : ∀ n ∈ level, 1 ≤ n) (hfolded : ¬ isFolded g atoms = true) : ∀ n ∈ level, 1 < n := by
  intro n hn
  by_contra hcon
  obtain rfl : n = 1 := by have := hl n hn; omega
  obtain ⟨h1, h2, h3⟩ := hg.bounds hsrc
  have hstop : (Source.substitutionInterior g).stop = g.stop - 1 := rfl
  obtain ⟨a, ha, hspan⟩ := h.complete g.start (g.stop - 1) hg.groupAt hg.signature.le (by omega)
    (by omega) (by rw [hg.depthFrom_succ]; exact hn)
  refine hfolded (List.any_eq_true.mpr ⟨a, ha, ?_⟩)
  rw [hspan]
  simp

/-- The substitutions of a group that is not folded are laid out. -/
theorem exists_fillSubstitutions (hsrc : src.Classed) {e g : Extent}
    (h : Hides src e.start e.stop level atoms) (hg : src.IsSubstitutionGroup e g)
    (hlen : e.stop ≤ src.length) (hd : ∀ n ∈ level, 1 < n) (indent : Int) (config : Config) :
    ∃ iss, (src.substitutions (Source.substitutionInterior g)).mapM
        (fillSubstitution src indent config atoms) = .ok iss ∧
      Placed atoms g.start e.stop indent iss.flatten := by
  obtain ⟨hstart, hle, hstop⟩ := hg.bounds hsrc
  have hsig := hg.signature.le
  refine exists_mapM_placed (by omega) (fun sub hsub => ?_) (hg.pairwise_substitutions hsrc hlen)
  obtain ⟨hbal, hfirst, hlast, hdepth⟩ := hg.substitution_spec hsrc hlen hsub
  exact ⟨by omega, hbal.le, by omega,
    exists_fillSubstitution h hbal (by omega) (by omega) hlen (by rwa [hdepth]) indent config⟩

/-- The layout of a function that shows its substitutions, put together from its parts. -/
theorem fillFunction_of_parts {e g : Extent} {indent : Int} {config : Config}
    {signature : List Instruction} {iss : List (List Instruction)}
    (hfound : src.substitutionGroup? e = .ok (some g)) (hopen : ¬ isFolded g atoms = true)
    (hsignature : fillType src ⟨e.start, g.start⟩ indent config atoms = .ok signature)
    (hiss : (src.substitutions (Source.substitutionInterior g)).mapM
      (fillSubstitution src (indent + config.indent) config atoms) = .ok iss) :
    fillFunction src e indent config atoms = .ok (signature ++ iss.flatten) := by
  rw [fillFunction, hfound]
  simp only [bind, Except.bind, if_neg hopen, hsignature, hiss]

/-- A function that shows no substitutions is laid out like a type. -/
theorem fillFunction_eq_fillType {e : Extent} {found : Option Extent}
    (hfound : src.substitutionGroup? e = .ok found)
    (hfolded : ∀ g, found = some g → isFolded g atoms = true) (indent : Int) (config : Config) :
    fillFunction src e indent config atoms = fillType src e indent config atoms := by
  rw [fillFunction, hfound]
  cases found with
  | none => rfl
  | some g => simp only [bind, Except.bind, if_pos (hfolded g rfl)]

/-- **A stretch at the start of what is folded** is laid out. -/
theorem exists_fillType {k : Nat} (h : Hides src base stop level atoms) (hbal : src.Balanced base k)
    (hk : k ≤ stop) (hlen : stop ≤ src.length) (hl : ∀ n ∈ level, 1 ≤ n) (indent : Int)
    (config : Config) : ∃ is, fillType src ⟨base, k⟩ indent config atoms = .ok is ∧
      Placed atoms base k indent is :=
  exists_layOut h (e := ⟨base, k⟩) hbal (Nat.le_refl _) hk hlen (Source.depthFrom_self_lt hl)
    (Int.le_of_lt config.indent_pos)

/-- **A function is laid out** whenever it is balanced. -/
theorem exists_fillFunction (hsrc : src.Classed) {e : Extent}
    (h : Hides src e.start e.stop level atoms) (he : src.Balanced e.start e.stop)
    (hlen : e.stop ≤ src.length) (hl : ∀ n ∈ level, 1 ≤ n) (indent : Int) (config : Config) :
    ∃ is, fillFunction src e indent config atoms = .ok is ∧
      Placed atoms e.start e.stop indent is := by
  have hunit := config.indent_pos
  obtain ⟨found, hfound, hgroup⟩ := Source.exists_substitutionGroup? he hlen
  by_cases hshows : ∃ g, found = some g ∧ ¬ isFolded g atoms = true
  · obtain ⟨g, rfl, hopen⟩ := hshows
    have hg := hgroup g rfl
    have hle := hg.signature.le
    obtain ⟨h1, h2, h3⟩ := hg.bounds hsrc
    obtain ⟨signature, hsignature, hps⟩ := exists_fillType h hg.signature
      (show g.start ≤ e.stop by omega) hlen hl indent config
    obtain ⟨iss, hiss, hpss⟩ := exists_fillSubstitutions hsrc h hg hlen
      (h.lt_of_not_isFolded hsrc hg hl hopen) (indent + config.indent) config
    exact ⟨_, fillFunction_of_parts hfound hopen hsignature hiss,
      hps.append (hpss.widen (Int.le_refl _) (Int.le_refl _) (by omega)) (by omega) (Int.le_refl _)
        (by omega)⟩
  · rw [fillFunction_eq_fillType hfound fun g hg => by
      by_contra hopen
      exact hshows ⟨g, hg, hopen⟩]
    exact exists_fillType h he (Nat.le_refl _) hlen hl indent config

theorem exists_fill (hsrc : src.Classed) {e : Extent}
    (h : Hides src e.start e.stop level atoms) (he : src.Balanced e.start e.stop)
    (hlen : e.stop ≤ src.length) (hl : ∀ n ∈ level, 1 ≤ n) (r : Reading) (indent : Int)
    (config : Config) : ∃ is, fill r src e indent config atoms = .ok is ∧
      Placed atoms e.start e.stop indent is := by
  cases r with
  | function => exact exists_fillFunction hsrc h he hlen hl indent config
  | type => exact exists_fillType h he (Nat.le_refl _) hlen hl indent config

end Fill

/-! ### Moving a layout to its place in the session -/

theorem Placed.shift {atoms : List Atom} {lo hi least : Int} {is : List Instruction}
    (h : Placed atoms lo hi least is) (delta : Int) :
    Placed (atoms.map fun a => ⟨a.span.shift delta, a.width⟩) (lo + delta) (hi + delta) least
      (is.map (·.shift delta)) := by
  refine ⟨List.pairwise_map.mpr (h.increasing.imp fun hlt => ?_), ?_, ?_, ?_⟩
  · simp only [Instruction.shift]; omega
  all_goals
    intro i' hi'
    obtain ⟨i, hmem, rfl⟩ := List.mem_map.mp hi'
  · have := h.bounds i hmem
    simp only [Instruction.shift]; omega
  · intro a' ha'
    obtain ⟨a, ha, rfl⟩ := List.mem_map.mp ha'
    have := h.clear i hmem a ha
    simp only [Instruction.shift, Span.shift]; omega
  · exact h.indent i hmem

namespace Folding

theorem placeholders_shift (f : Folding) (delta : Int) :
    (f.shift delta).placeholders =
      f.placeholders.map fun p => ⟨p.span.shift delta, p.text⟩ := by
  rw [placeholders, placeholders, shift, List.filterMap_map, List.map_filterMap]
  refine List.filterMap_congr fun v _ => ?_
  simp only [Function.comp_def, placeholderOf]
  cases v.visibility with
  | shown => rfl
  | buried => rfl
  | replaced p =>
    simp only [Region.shift, Int.add_lt_add_iff_right]
    split_ifs <;> rfl

theorem atoms_shift (f : Folding) (delta : Int) :
    (f.shift delta).atoms = f.atoms.map fun a => ⟨a.span.shift delta, a.width⟩ := by
  rw [atoms, atoms, placeholders_shift, List.map_map, List.map_map]
  rfl

end Folding

/-! ### The whole expression -/

/-- **What is recognised can be folded** at every level there is, with any placeholder. -/
theorem Match.exists_fold {src : Source} {m : Match} (hm : Match.best? src = some m)
    {level : Option Int} (hl : ∀ n ∈ level, 1 ≤ n) (placeholder : Text) :
    ∃ regions folding, src.regions m.extent = .ok regions ∧
      fold regions level placeholder = .ok folding ∧
      Hides src 0 m.length level folding.atoms ∧
      folding.placeholders.Pairwise (fun p p' => p.span.stop < p'.span.start) ∧
      ∀ p ∈ folding.placeholders,
        0 < p.span.start ∧ p.span.start < p.span.stop ∧ p.span.stop < m.length := by
  obtain ⟨-, hle, hbal⟩ := Match.balanced_of_best? hm
  obtain ⟨f, hw, hlaid⟩ := exists_laid (e := m.extent) hbal hle
  obtain ⟨folding, hfold⟩ := DiagLayout.exists_fold (f.regions 0) placeholder hl
  exact ⟨f.regions 0, folding, regions_eq_of_laid (e := m.extent) hle hw hlaid, hfold,
    hides_of_fold hlaid hfold, placeholders_apart hlaid hfold⟩

/-- **The placeholders of a fold** of the positions from `base` up to `stop`. -/
structure FoldOf (src : Source) (base stop : Nat) (level : Option Int)
    (hidden : List Placeholder) : Prop where
  hides : Hides src base stop level (hidden.map Placeholder.atom)
  apart : hidden.Pairwise fun p p' => p.span.stop < p'.span.start
  inside : ∀ p ∈ hidden,
    (base : Int) < p.span.start ∧ p.span.start < p.span.stop ∧ p.span.stop < stop
  stop_le : stop ≤ src.length

/-- **The fold of a match.** -/
theorem Match.foldOf_of_fold {src : Source} {m : Match} (hm : Match.best? src = some m)
    {regions : List Region} {level : Option Int} {placeholder : Text} {folding : Folding}
    (hregions : src.regions m.extent = .ok regions)
    (hfold : fold regions level placeholder = .ok folding) :
    FoldOf src 0 m.length level folding.placeholders := by
  obtain ⟨-, hle, -⟩ := Match.balanced_of_best? hm
  obtain ⟨regions', folding', hregions', hfold', hhides, hapart, hinside⟩ :=
    Match.exists_fold hm (level_of_fold hfold).2 placeholder
  obtain rfl : regions = regions' := Except.ok.inj (hregions.symm.trans hregions')
  obtain rfl : folding = folding' := Except.ok.inj (hfold.symm.trans hfold')
  exact ⟨hhides, hapart, hinside, hle⟩

namespace Expression

/-- **The instructions and the placeholders of an expression have their places** in the part of the
quote that the match covers. -/
structure WellPlaced (e : Expression) : Prop where
  instructions : Placed e.fold.atoms (e.quote.start - 1) (e.quote.start + e.found.length) 0
    e.instructions
  apart : e.fold.placeholders.Pairwise fun p p' => p.span.stop < p'.span.start
  bounds : ∀ p ∈ e.fold.placeholders, e.quote.start < p.span.start ∧
    p.span.start < p.span.stop ∧ p.span.stop < e.quote.start + e.found.length

/-- **An expression is laid out** at every level there is, whatever its quote, column and
configuration. -/
theorem exists_make {text : Text} {m : Match} (hm : Match.best? (Source.ofText text) = some m)
    (quote : Span) (column : Nat) (config : Config) {level : Option Int}
    (hl : ∀ n ∈ level, 1 ≤ n) :
    ∃ e, make text m quote column config level = .ok e ∧ e.WellPlaced := by
  obtain ⟨-, hle, hbal⟩ := Match.balanced_of_best? hm
  obtain ⟨regions, folding, hregions, hfold, hhides, hapart, hbounds⟩ :=
    Match.exists_fold hm hl config.placeholder
  generalize hlead : decide (config.width < column + shownLength m folding.atoms) = leading
  obtain ⟨is, his, hplaced⟩ := exists_fill (Source.classed_ofText text)
    (e := m.extent) hhides hbal hle hl m.reading
    (if leading then 0 else column) config
  let first : List Instruction := if leading then [⟨m.extent.start, 0⟩] else []
  have hmake : make text m quote column config level = .ok
      { quote, found := m, column, ownLine := leading
        instructions := (first ++ is).map (·.shift quote.start)
        regions := regions.map (·.shift quote.start)
        fold := folding.shift quote.start } := by
    simp only [make, hregions, hfold, bind, Except.bind, hlead, his, first]
  -- the leading line break, before everything else
  have hfirst : Placed folding.atoms (-1) m.length 0 (first ++ is) := by
    cases leading with
    | false =>
      exact hplaced.widen (show (-1 : Int) ≤ 0 by omega) (Int.le_refl _)
        (show (0 : Int) ≤ column by omega)
    | true =>
      refine Placed.cons (i := ⟨m.extent.start, 0⟩) hplaced (show (-1 : Int) < 0 by omega)
        (show (0 : Int) ≤ m.length by omega) (fun a ha => ?_) (Int.le_refl _)
      obtain ⟨p, hp, rfl⟩ := List.mem_map.mp ha
      exact Or.inl (Int.le_of_lt (hbounds p hp).1)
  refine ⟨_, hmake, ?_, ?_, ?_⟩
  · have hshift := hfirst.shift quote.start
    rw [← Folding.atoms_shift] at hshift
    exact hshift.widen (by simp only; omega) (by simp only; omega) (Int.le_refl _)
  · rw [Folding.placeholders_shift]
    refine List.pairwise_map.mpr (hapart.imp fun hlt => ?_)
    simp only [Span.shift]; omega
  · intro p' hp'
    rw [Folding.placeholders_shift] at hp'
    obtain ⟨p, hp, rfl⟩ := List.mem_map.mp hp'
    have := hbounds p hp
    simp only [Span.shift]; omega

/-- **What is in an expression** besides what it was made from. -/
theorem exists_of_make {text : Text} {m : Match} {quote : Span} {column : Nat}
    {config : Config} {level : Option Int} {e : Expression}
    (h : make text m quote column config level = .ok e) : ∃ regions folding is,
      (Source.ofText text).regions m.extent = .ok regions ∧
      DiagLayout.fold regions level config.placeholder = .ok folding ∧
      fill m.reading (Source.ofText text) m.extent (if e.ownLine then 0 else column) config
        folding.atoms = .ok is ∧
      e.ownLine = decide (config.width < column + shownLength m folding.atoms) ∧
      e.instructions =
        (if e.ownLine then [⟨quote.start, 0⟩] else []) ++ is.map (·.shift quote.start) ∧
      e.fold = folding.shift quote.start := by
  unfold make at h
  obtain ⟨regions, hregions, h⟩ := exists_of_bind_eq_ok h
  obtain ⟨folding, hfold, h⟩ := exists_of_bind_eq_ok h
  obtain ⟨is, his, h⟩ := exists_of_bind_eq_ok h
  cases h
  refine ⟨regions, folding, is, hregions, hfold, his, rfl, ?_, rfl⟩
  simp only [List.map_append]
  congr 1
  split_ifs
  · simp [Instruction.shift, Match.extent]
  · rfl

/-- **What an expression was made from** can be read off it. -/
theorem of_make {text : Text} {m : Match} {quote : Span} {column : Nat} {config : Config}
    {level : Option Int} {e : Expression} (h : make text m quote column config level = .ok e) :
    e.quote = quote ∧ e.found = m ∧ e.column = column ∧ e.fold.level = level ∧
      ∀ n ∈ level, 1 ≤ n := by
  unfold make at h
  obtain ⟨regions, -, h⟩ := exists_of_bind_eq_ok h
  obtain ⟨folding, hfold, h⟩ := exists_of_bind_eq_ok h
  obtain ⟨instructions, -, h⟩ := exists_of_bind_eq_ok h
  obtain ⟨hlevel, hl⟩ := level_of_fold hfold
  cases h
  exact ⟨rfl, rfl, rfl, hlevel, hl⟩

end Expression

end DiagLayout
