import DiagLayout.Proofs.Overlays
import DiagLayout.Proofs.Sessions

/-!
# What a session renders

The expressions of a session lie one behind the other in its text (`Valid.expressions_apart`), and
each keeps its instructions and placeholders inside its own quote (`Valid.within`). Together they
can be laid over the text (`Valid.layable`), so the rendered text is made of the pieces of the text,
the line breaks and the placeholders, with nothing lost and nothing doubled (`rendering_faithful`).
-/

namespace DiagLayout

namespace Session

/-! ### Expressions in their quotes -/

/-- **An expression keeps inside its quote**, and the quote inside a text of `n` characters. -/
structure Within (n : Nat) (e : Expression) : Prop where
  wellPlaced : e.WellPlaced
  start_pos : 0 < e.quote.start
  found_le : e.quote.start + e.found.length ≤ e.quote.stop
  stop_lt : e.quote.stop < n

theorem Valid.within {s : Session} (h : s.Valid) {e : Expression} (he : e ∈ s.expressions) :
    Within s.text.length e := by
  obtain ⟨site, hstands, hmade⟩ := h.exists_site he
  obtain ⟨hquote, hfound, -, -, hlevel⟩ := Expression.of_make hmade
  obtain ⟨e', he', hplaced⟩ := Expression.exists_make hstands.found_eq site.quote site.column
    s.config hlevel
  cases Except.ok.inj (hmade.symm.trans he')
  obtain ⟨-, hle, -⟩ := Match.balanced_of_best? hstands.found_eq
  rw [Source.length_ofText] at hle
  have hstop := hstands.stop_eq
  refine ⟨hplaced, ?_, ?_, ?_⟩
  · rw [hquote]
    exact hstands.start_pos
  · rw [hquote, hfound]
    omega
  · rw [hquote]
    exact hstands.stop_lt

theorem Within.instruction {n : Nat} {e : Expression} (h : Within n e) {i : Instruction}
    (hi : i ∈ e.instructions) : e.quote.start ≤ i.offset ∧ i.offset ≤ e.quote.stop := by
  have := h.wellPlaced.instructions.bounds i hi
  have := h.found_le
  omega

theorem Within.placeholder {n : Nat} {e : Expression} (h : Within n e) {p : Placeholder}
    (hp : p ∈ e.fold.placeholders) : e.quote.start < p.span.start ∧
      p.span.start < p.span.stop ∧ p.span.stop < e.quote.stop := by
  have := h.wellPlaced.bounds p hp
  have := h.found_le
  omega

theorem Within.clear {n : Nat} {e : Expression} (h : Within n e) {i : Instruction}
    (hi : i ∈ e.instructions) {p : Placeholder} (hp : p ∈ e.fold.placeholders) :
    i.offset ≤ p.span.start ∨ p.span.stop ≤ i.offset := by
  have hclear := h.wellPlaced.instructions.clear i hi p.atom (List.mem_map_of_mem hp)
  exact hclear.imp_right Int.le_of_lt

/-! ### Expressions in their text -/

theorem pairwise_of_made {config : Config} {sites : List Site} {es : List Expression}
    (h : List.Forall₂ (Made config) sites es)
    (hs : sites.Pairwise fun site site' => site.quote.stop + 1 < site'.quote.start) :
    es.Pairwise fun e e' => e.quote.stop + 1 < e'.quote.start := by
  have hquotes : es.map Expression.quote = sites.map Site.quote := by
    clear hs
    induction h with
    | nil => rfl
    | cons hmade _ ih => rw [List.map_cons, List.map_cons, (Expression.of_make hmade).1, ih]
  have hmap := List.pairwise_map (f := Site.quote) (l := sites)
    (R := fun q q' : Span => q.stop + 1 < q'.start) |>.mpr hs
  rw [← hquotes] at hmap
  exact List.pairwise_map.mp hmap

/-- **The expressions lie one behind the other**, with the marks of their quotes between them. -/
theorem Valid.expressions_apart {s : Session} (h : s.Valid) :
    s.expressions.Pairwise fun e e' => e.quote.stop + 1 < e'.quote.start :=
  pairwise_of_made h.made (ordered_sitesFrom s.config s.lines 0).apart

/-- **The instructions and placeholders of a session can be laid over its text.** -/
theorem Valid.layable {s : Session} (h : s.Valid) :
    Layable s.text.length s.instructions s.placeholders where
  increasing := by
    refine List.pairwise_flatMap.mpr
      ⟨fun e he => (h.within he).wellPlaced.instructions.increasing, ?_⟩
    refine h.expressions_apart.imp_of_mem fun {e e'} he he' hlt i hi i' hi' => ?_
    have := (h.within he).instruction hi
    have := (h.within he').instruction hi'
    omega
  bounds := by
    intro i hi
    obtain ⟨e, he, hi⟩ := List.mem_flatMap.mp hi
    have := (h.within he).instruction hi
    have := (h.within he).start_pos
    have := (h.within he).stop_lt
    omega
  apart := by
    refine List.pairwise_flatMap.mpr ⟨fun e he => (h.within he).wellPlaced.apart, ?_⟩
    refine h.expressions_apart.imp_of_mem fun {e e'} he he' hlt p hp p' hp' => ?_
    have := (h.within he).placeholder hp
    have := (h.within he').placeholder hp'
    omega
  inside := by
    intro p hp
    obtain ⟨e, he, hp⟩ := List.mem_flatMap.mp hp
    have := (h.within he).placeholder hp
    have := (h.within he).start_pos
    have := (h.within he).stop_lt
    omega
  clear := by
    intro i hi p hp
    obtain ⟨e, he, hi⟩ := List.mem_flatMap.mp hi
    obtain ⟨e', he', hp⟩ := List.mem_flatMap.mp hp
    by_cases heq : e = e'
    · exact (h.within he).clear hi (heq ▸ hp)
    · -- quotes of different expressions have no offset in common
      have hapart := rel_or_rel_of_pairwise h.expressions_apart he he' heq
      have := (h.within he).instruction hi
      have := (h.within he').placeholder hp
      omega

theorem Valid.indent_nonneg {s : Session} (h : s.Valid) :
    ∀ i ∈ s.instructions, 0 ≤ i.indent := by
  intro i hi
  obtain ⟨e, he, hi⟩ := List.mem_flatMap.mp hi
  exact (h.within he).wellPlaced.instructions.indent i hi

end Session

/-- **Rendering is faithful.** In every session that can be reached, the instructions and the
placeholders can be laid over the text; what is rendered shows the pieces offset by offset, each
instruction as one line break with its indent and each hidden span as one placeholder; and the
pieces are the text again when the breaks are taken out and the hidden texts put back. -/
theorem rendering_faithful (config : Config) (requests : List Request) :
    let s := Session.reached config requests
    Layable s.text.length s.instructions s.placeholders ∧
    (∀ i ∈ s.instructions, 0 ≤ i.indent) ∧
    s.rendered = (pieces s.text s.instructions s.placeholders).flatMap Piece.shown ∧
    (pieces s.text s.instructions s.placeholders).filterMap Piece.break? = s.instructions ∧
    (pieces s.text s.instructions s.placeholders).filterMap Piece.folded? = s.placeholders ∧
    (pieces s.text s.instructions s.placeholders).flatMap (Piece.restored s.text) = s.text := by
  intro s
  have h : s.Valid := Session.valid_reached config requests
  have hl := h.layable
  exact ⟨hl, h.indent_nonneg, hl.overlay_eq_pieces, hl.breaks_pieces, hl.folds_pieces,
    hl.restored_pieces⟩

/-- A line break and a placeholder at one offset: the break comes first. -/
theorem rendering_faithful_break_before_placeholder :
    let s := Session.reached { width := 6 }
      [.feed "a.c:1:2: error: bad 'vvvv<i, j>' x\n".toList, .fold 24 (some 1)]
    (⟨26, 2⟩ : Instruction) ∈ s.instructions ∧
      s.placeholders = [⟨⟨26, 30⟩, "…".toList⟩] ∧
      (0 : Int) ≤ (⟨26, 2⟩ : Instruction).indent ∧
      s.rendered = "a.c:1:2: error: bad '\nvvvv<\n  …>' x\n".toList ∧
      (pieces s.text s.instructions s.placeholders).flatMap (Piece.restored s.text) = s.text := by
  intro s
  have hi : (⟨26, 2⟩ : Instruction) ∈ s.instructions := by decide +kernel
  obtain ⟨-, hindent, -, -, -, hrestored⟩ := rendering_faithful { width := 6 }
    [.feed "a.c:1:2: error: bad 'vvvv<i, j>' x\n".toList, .fold 24 (some 1)]
  exact ⟨hi, by decide +kernel, hindent _ hi, by decide +kernel, hrestored⟩

end DiagLayout
