import DiagLayout.Proofs.SubstitutionLines
import DiagLayout.Proofs.WholeGroups

/-!
# Parts of what is folded

A fold is made once, for all that a match covers. The signature of a function and the values of its
substitutions are parts of this, each laid out by itself (`FoldOf.exists_filled`). Where what is
shown of a part stays within the width, no line is broken in it (`FoldOf.layOut_eq_nil`).
-/

namespace DiagLayout

namespace FoldOf

variable {src : Source} {base stop : Nat} {level : Option Int} {hidden : List Placeholder}
  (h : FoldOf src base stop level hidden)
include h

/-- Instructions in their places and the placeholders can be laid over the text. -/
theorem layable {lo hi least : Int} {is : List Instruction}
    (hp : Placed (hidden.map Placeholder.atom) lo hi least is) (hlo : -1 ≤ lo) (hhi : hi ≤ stop) :
    Layable src.length is hidden := by
  have hle := h.stop_le
  refine ⟨hp.increasing, fun i hi => ?_, h.apart, fun p hp => ?_, fun i hi p hmem => ?_⟩
  · have := hp.bounds i hi
    omega
  · have := h.inside p hp
    omega
  · exact (hp.clear i hi p.atom (List.mem_map_of_mem hmem)).imp_right Int.le_of_lt

/-- **A part less deep than the level is laid out**, and its layout has the invariant. -/
theorem exists_filled {e : Extent} (he : src.Balanced e.start e.stop) (hb : base ≤ e.start)
    (hj : e.stop ≤ stop) (hd : ∀ n ∈ level, src.depthFrom base e.start < n) (page : Page)
    (hatoms : page.atoms = hidden.map Placeholder.atom) (hunit : 0 ≤ page.unit) (indent : Int) :
    ∃ f : Forest Token, f.word = src.tokens e ∧
      layOut src e page.width page.unit indent (hidden.map Placeholder.atom) =
        .ok (f.breaks page ⟨false, indent⟩ indent) ∧
      Placed (hidden.map Placeholder.atom) e.start e.stop indent
        (f.breaks page ⟨false, indent⟩ indent) ∧
      Layable src.length (f.breaks page ⟨false, indent⟩ indent) hidden ∧
      Filled src hidden (f.breaks page ⟨false, indent⟩ indent) page e.start indent e.start f e.stop
        ⟨false, indent⟩ indent := by
  have hle := h.stop_le
  obtain ⟨f, hw, hl⟩ := exists_laid he (show e.stop ≤ src.length by omega)
  have hshown := h.hides.shown hl hb hj hd
  have hsize : ∀ a ∈ page.atoms, 0 ≤ a.span.length := by
    intro a ha
    exact Int.le_of_lt (h.hides.span_length_pos (hatoms ▸ ha))
  have hplaced := hl.placed_breaks page (hatoms ▸ hshown) hunit ⟨false, indent⟩ indent
  have hlayOut := layOut_eq_breaks page hsize (show e.stop ≤ src.length by omega) hw hl
    (hatoms ▸ h.hides.agrees_of_shown hl hshown) indent
  rw [hatoms] at hplaced hlayOut
  exact ⟨f, hw, hlayOut, hplaced, h.layable hplaced (by omega) (by omega),
    hl.filled (by omega) (h.hides.folds hl hshown) page ⟨false, indent⟩ indent⟩

/-- **A part that fits is left alone.** -/
theorem layOut_eq_nil {e : Extent} (he : src.Balanced e.start e.stop) (hb : base ≤ e.start)
    (hj : e.stop ≤ stop) (hd : ∀ n ∈ level, src.depthFrom base e.start < n)
    {width unit indent : Int} (hunit : 0 ≤ unit)
    (hfits : indent + src.visibleLength hidden e.start e.stop ≤ width) :
    layOut src e width unit indent (hidden.map Placeholder.atom) = .ok [] := by
  obtain ⟨f, -, hlayOut, -, hlay, hfilled⟩ := h.exists_filled he hb hj hd
    ⟨hidden.map Placeholder.atom, width, unit⟩ rfl hunit indent
  rw [hlayOut, (hfilled.breaks_of_room hlay rfl ⟨rfl, fun _ => hfits⟩).1]

end FoldOf

end DiagLayout
