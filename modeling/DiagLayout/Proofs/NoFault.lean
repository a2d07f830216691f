import DiagLayout.Proofs.Sessions

/-!
# Diagnostics never lead to an internal fault

The faults of a walk over brackets, of the printer and of the cursor cannot be met from a text. What
is recognised has its regions, can be folded, and is laid out as a type and as a function
(`layout_never_fails`). Looking through a line comes down to that, and so do the requests of a
session: none that can be reached refuses output, other settings, or a fold at a position that is
found (`internal_faults_unreachable`).
-/

namespace DiagLayout

theorem Session.exists_indexAt {s : Session} {position : Int}
    (h : ∃ e ∈ s.expressions, Session.covers position e = true) :
    ∃ i, s.indexAt position = .ok i := by
  unfold Session.indexAt
  cases hi : s.expressions.findIdx? (Session.covers position) with
  | some i => exact ⟨i, rfl⟩
  | none =>
    obtain ⟨e, he, hcovers⟩ := h
    have := List.findIdx?_eq_none_iff.mp hi e he
    rw [hcovers] at this
    cases this

/-- **What is recognised is laid out**, as a type and as a function, with what the fold hides. -/
theorem layout_never_fails {text : Text} {m : Match}
    (hm : Match.best? (Source.ofText text) = some m) {level : Option Int}
    (hl : ∀ n ∈ level, 1 ≤ n) (placeholder : Text) (indent : Int) (config : Config) :
    ∃ regions folding asType asFunction,
      (Source.ofText text).regions m.extent = .ok regions ∧
      fold regions level placeholder = .ok folding ∧
      fillType (Source.ofText text) m.extent indent config folding.atoms = .ok asType ∧
      fillFunction (Source.ofText text) m.extent indent config folding.atoms = .ok asFunction := by
  obtain ⟨-, hle, hbal⟩ := Match.balanced_of_best? hm
  obtain ⟨regions, folding, hregions, hfold, hhides, -⟩ := Match.exists_fold hm hl placeholder
  have hsrc := Source.classed_ofText text
  obtain ⟨asType, htype, -⟩ :=
    exists_fill hsrc (e := m.extent) hhides hbal hle hl .type indent config
  obtain ⟨asFunction, hfunction, -⟩ :=
    exists_fillFunction hsrc (e := m.extent) hhides hbal hle hl indent config
  exact ⟨regions, folding, asType, asFunction, hregions, hfold, htype, hfunction⟩

/-- **Internal faults cannot be met.** Every line is looked through at every offset; every match is
folded and laid out at every level, with every placeholder and indent; and every session that can be
reached takes all output, all settings, and a fold wherever an expression covers the position. -/
theorem internal_faults_unreachable :
    (∀ (line : Text) (base : Int) (config : Config), ∃ r, examineLine line base config = .ok r) ∧
    (∀ (text : Text) (m : Match), Match.best? (Source.ofText text) = some m →
      ∀ (level : Option Int) (placeholder : Text) (indent : Int) (config : Config),
        (∀ n ∈ level, 1 ≤ n) → ∃ regions folding asType asFunction,
          (Source.ofText text).regions m.extent = .ok regions ∧
          fold regions level placeholder = .ok folding ∧
          fillType (Source.ofText text) m.extent indent config folding.atoms = .ok asType ∧
          fillFunction (Source.ofText text) m.extent indent config folding.atoms =
            .ok asFunction) ∧
    (∀ (config : Config) (requests : List Request),
      (∀ chunk, ∃ r, (Session.reached config requests).feed chunk = .ok r) ∧
      (∀ config', ∃ r, (Session.reached config requests).reconfigure config' = .ok r) ∧
      ∀ (position : Int) (level : Option Int),
        (∃ e ∈ (Session.reached config requests).expressions, Session.covers position e = true) →
          (∀ n ∈ level, 1 ≤ n) →
            ∃ r, (Session.reached config requests).fold position level = .ok r) := by
  refine ⟨fun line base config => ?_, fun text m hm level placeholder indent config hl => ?_,
    fun config requests => ?_⟩
  · obtain ⟨r, hr, -⟩ := exists_examineLine line base config
    exact ⟨r, hr⟩
  · exact layout_never_fails hm hl placeholder indent config
  · have hvalid := Session.valid_reached config requests
    refine ⟨fun chunk => ?_, fun config' => ?_, fun position level hcovers hl => ?_⟩
    · obtain ⟨_, _, rs, -, hfeed, -⟩ := hvalid.exists_feed chunk
      exact ⟨_, hfeed⟩
    · obtain ⟨es, next, hnext, -⟩ := hvalid.exists_reconfigure config'
      exact ⟨_, hnext⟩
    · obtain ⟨i, hi⟩ := Session.exists_indexAt hcovers
      obtain ⟨_, e, -, -, hfold⟩ := hvalid.exists_fold hi hl
      exact ⟨_, hfold⟩

/-- A function with substitutions is recognised and laid out at level two, and the expression of a
line is folded at level one. -/
theorem internal_faults_unreachable_with :
    Match.best? (Source.ofText "void f(T) [with T = a<b>]".toList) = some ⟨.function, 25⟩ ∧
    (∃ regions folding asType asFunction,
      (Source.ofText "void f(T) [with T = a<b>]".toList).regions ⟨0, 25⟩ = .ok regions ∧
      fold regions (some 2) ['…'] = .ok folding ∧
      fillType (Source.ofText "void f(T) [with T = a<b>]".toList) ⟨0, 25⟩ 0 {} folding.atoms =
        .ok asType ∧
      fillFunction (Source.ofText "void f(T) [with T = a<b>]".toList) ⟨0, 25⟩ 0 {}
        folding.atoms = .ok asFunction) ∧
    ∃ r, (Session.reached { width := 10 }
      [.feed "a.c:1:2: error: bad 'v<i>' here\n".toList]).fold 21 (some 1) = .ok r := by
  have hbest : Match.best? (Source.ofText "void f(T) [with T = a<b>]".toList) =
      some ⟨.function, 25⟩ := by decide +kernel
  have hcovers : (Session.reached { width := 10 }
      [.feed "a.c:1:2: error: bad 'v<i>' here\n".toList]).expressions.any (Session.covers 21) =
        true := by decide +kernel
  exact ⟨hbest,
    internal_faults_unreachable.2.1 _ _ hbest (some 2) ['…'] 0 {} (by simp),
    (internal_faults_unreachable.2.2 _ _).2.2 21 (some 1) (List.any_eq_true.mp hcovers) (by simp)⟩

end DiagLayout
