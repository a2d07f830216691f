import DiagLayout.Proofs.FoldedText
import DiagLayout.Proofs.RegionStructure

/-!
# Brackets that lead to a fault

Two walks look at the brackets of a stretch. The one that lists its regions only counts: every
closer ends the region opened last, whatever its bracket. The one that lays it out also asks for the
closer of each opener, and that one has to be of the same bracket.

So what is laid out has its regions, but not the other way round. The layout fails iff there are no
regions or one of them stands between brackets that do not belong together: `layOut_fails_iff`.

* `printEnd_of_tiled`: a printer that gets to the end of a trace has seen its groups closed;
* `openAfter_of_nest`: so has the walk whose regions all stand between brackets that belong
  together.
-/

namespace DiagLayout

/-- The fault breaks what a walk over brackets, a printer or a cursor relies on. -/
def Fault.isInternal : Fault → Bool
  | unbalanced .. | noFrame | strayExit | openGroups _ | unmatchedCloser _ | unclosedGroup _
  | cursorBack .. => true
  | _ => false

/-! ### Brackets that are still to be closed -/

/-- The walk has got to the closer. -/
def Closing.isClosed : Closing → Bool
  | closed _ => true
  | _ => false

@[simp] theorem Closing.isClosed_next (r : Closing) : r.next.isClosed = r.isClosed := by
  cases r <;> rfl

@[simp] theorem Closing.isClosed_shift (r : Closing) (n : Nat) :
    (r.shift n).isClosed = r.isClosed := by
  cases r <;> rfl

/-- **The glyphs close the stack**: the innermost bracket of it, the innermost two, and so on. -/
def Closes (stack : List Bracket) (gs : List Glyph) : Prop :=
  ∀ s, s ≠ [] → s <+: stack → (closing s gs).isClosed = true

namespace Closes

variable {stack : List Bracket} {gs : List Glyph} {g : Glyph} {b : Bracket}

theorem nil (gs : List Glyph) : Closes [] gs :=
  fun _ hne hs => absurd (List.prefix_nil.mp hs) hne

theorem eq_nil (h : Closes stack []) : stack = [] := by
  by_contra hne
  have := h stack hne (List.prefix_refl _)
  simp [closing, Closing.isClosed] at this

theorem items {u : List Glyph} (h : Closes stack (u ++ gs))
    (hu : ∀ x ∈ u, x.cls.isBracket = false) : Closes stack gs := by
  intro s hne hs
  obtain ⟨b, below, rfl⟩ := List.exists_cons_of_ne_nil hne
  have hclosed := h _ hne hs
  rwa [closing_nested (Nested.of_items hu), Closing.isClosed_shift] at hclosed

/-- An opener whose group ends is one more bracket to close. -/
theorem opener (h : Closes stack (g :: gs)) (hg : g.cls = .opener b) {d : Nat}
    (hd : groupEnd? (g :: gs) = some d) : Closes (b :: stack) gs := by
  intro s hne hs
  obtain ⟨b', s, rfl⟩ := List.exists_cons_of_ne_nil hne
  obtain ⟨rfl, hprefix⟩ := List.cons_prefix_cons.mp hs
  by_cases hnil : s = []
  · subst hnil
    have hkind : g.kind = .opener := Glyph.kind_eq_opener.mpr ⟨b', hg⟩
    rw [groupEnd?, if_pos hkind, closing_opener hg] at hd
    cases hcl : closing [b'] gs with
    | closed d => rfl
    | mismatched => simp [hcl, Closing.next] at hd
    | unfinished => simp [hcl, Closing.next] at hd
  · have hclosed := h s hnil hprefix
    rwa [closing_opener hg, Closing.isClosed_next] at hclosed

/-- A closer closes the innermost bracket, which is of its kind. -/
theorem closer {top : Bracket} {below : List Bracket} (h : Closes (top :: below) (g :: gs))
    (hg : g.cls = .closer b) : top = b ∧ Closes below gs := by
  have htop : top = b := by
    by_contra hne
    have hclosed := h [top] (List.cons_ne_nil _ _)
      (List.cons_prefix_cons.mpr ⟨rfl, List.nil_prefix⟩)
    unfold closing at hclosed
    simp [hg, hne, Closing.isClosed] at hclosed
  refine ⟨htop, fun s hne hs => ?_⟩
  have hclosed := h (top :: s) (List.cons_ne_nil _ _) (List.cons_prefix_cons.mpr ⟨rfl, hs⟩)
  unfold closing at hclosed
  simpa [hg, htop, hne] using hclosed

end Closes

/-! ### What a printer has seen -/

/-- How a printer inside the groups of `stack` ends on the tokens: with instructions, and then the
tokens close the stack, or with an internal fault. -/
inductive PrintEnd (stack : List Bracket) (ts : List Token) :
    Except Fault (List Instruction) → Prop
  | laid (is : List Instruction) (h : openAfter Token.cls stack ts = some []) :
    PrintEnd stack ts (.ok is)
  | refused (f : Fault) (h : f.isInternal = true) : PrintEnd stack ts (.error f)

/-- A token in front moves the stack that the printer starts from. -/
theorem PrintEnd.token {stack stack' : List Bracket} {t : Token} {ts : List Token}
    {r : Except Fault (List Instruction)} (h : PrintEnd stack' ts r)
    (hstep : openAfter Token.cls stack (t :: ts) = openAfter Token.cls stack' ts) :
    PrintEnd stack (t :: ts) r := by
  cases h with
  | laid is h => exact .laid is (hstep.trans h)
  | refused f h => exact .refused f h

theorem Printer.Writes.print_prepend {p q : Printer} {es : List Event} {is : List Instruction}
    (h : p.Writes es is q) (tr : Trace) : p.print (tr.prepend es) = q.print tr := by
  unfold Printer.print Trace.prepend
  rw [Printer.run_append, h.run_eq]
  rfl

theorem Printer.Writes.print_stopped {p q : Printer} {es : List Event} {is : List Instruction}
    (h : p.Writes es is q) (f : Fault) : p.print (.stopped es f) = .error f := by
  unfold Printer.print Trace.stopped
  rw [h.run_eq]
  rfl

theorem traceTokens_stopped {src : Source} {i : Nat} {range : Extent} {t : Token} {ts : List Token}
    {es : List Event} {f : Fault} (hat : t.At src i) (he : t.events [] range ts = .stopped es f) :
    traceTokens [] range i (t :: ts) = .stopped es f := by
  have hs := hat.start_eq
  rw [traceTokens, if_neg (by omega)]
  simp [Atom.startingAt, he, Trace.stopped]

/-- **A printer that gets to the end of a trace has seen its groups closed.** The induction is over
the tokens. It keeps one frame for each open group, and that the glyphs to come close these groups:
the trace goes on behind an opener only if there is a closer for it. -/
theorem printEnd_of_tiled {src : Source} {range : Extent} {page : Page} {ts : List Token} :
    ∀ {i : Nat} {p : Printer} {frames : List Frame} {col : Int} {stack : List Bracket},
      Tiled src i ts → p.Stands page frames col → frames.length = stack.length + 1 →
        Closes stack (ts.flatMap Token.glyphs) →
          PrintEnd stack ts (p.print (traceTokens [] range i ts)) := by
  induction ts with
  | nil =>
    intro i p frames col stack _ hp hlen hcloses
    obtain rfl := hcloses.eq_nil
    have hone : p.frames.length = 1 := by rw [hp.frames_eq, hlen]; rfl
    have hprint : p.print (traceTokens [] range i []) = .ok p.instructions := by
      simp [Printer.print, traceTokens, Printer.run, Printer.finish, hone, bind, Except.bind, pure,
        Except.pure]
    rw [hprint]
    exact .laid _ rfl
  | cons t ts ih =>
    rintro i p frames col stack ⟨hat, hts⟩ hp hlen hcloses
    obtain ⟨top, below, rfl⟩ := List.exists_cons_of_length_eq_add_one hlen
    obtain ⟨p₁, h₁, hs₁, hx₁⟩ : ∃ p₁ : Printer, p.Writes [t.textEvent] [] p₁ ∧
        p₁.Stands page (top :: below) (col + t.glyphs.length) ∧ p₁.breakOffset = t.stop :=
      Printer.exists_writes_text hp t.extent.span t.glyphs.length
    rw [List.flatMap_cons] at hcloses
    cases hc : t.cls with
    | opener b =>
      have hk := hat.formed.kind_opener hc
      obtain ⟨g, hg, hgb⟩ := hat.formed.glyphs_opener hc
      rw [hg, List.singleton_append] at hcloses
      cases hd : groupEnd? (g :: ts.flatMap Token.glyphs) with
      | none =>
        have hevents : t.events [] range ts =
            .stopped [t.textEvent] (.unbalanced t.start range.start range.stop) := by
          simp [Token.events, Token.textEvent, hk, hg, hd]
        rw [traceTokens_stopped hat hevents, h₁.print_stopped]
        exact .refused _ rfl
      | some d =>
        obtain ⟨length, hevents⟩ : ∃ length, t.events [] range ts =
            ⟨[t.textEvent, .enter length], none⟩ :=
          ⟨_, by simp [Token.events, Token.textEvent, hk, hg, hd, Atom.shownLength, pure,
            Except.pure]; rfl⟩
        obtain ⟨p₂, h₂, hs₂⟩ := Printer.exists_writes_enter hs₁ hx₁ length
        have hwrites : p.Writes [t.textEvent, .enter length] _ p₂ := h₁.trans h₂
        rw [traceTokens_shown hat rfl hevents hts, hwrites.print_prepend]
        exact (ih hts hs₂ (by simpa using hlen) (hcloses.opener hgb hd)).token
          (openAfter_opener hc stack ts)
    | closer b =>
      have hevents : t.events [] range ts = ⟨[t.textEvent, .exit], none⟩ :=
        Token.events_closer (hat.formed.kind_closer hc) ts
      obtain ⟨g, tail, hg, hgb, htail⟩ := hat.formed.glyphs_closer hc
      rw [hg, List.cons_append] at hcloses
      rw [traceTokens_shown hat rfl hevents hts]
      rcases stack with _ | ⟨b', stack⟩
      · -- no group is open, so only the line itself is left
        obtain rfl : below = [] := by simpa using hlen
        have hprint : p.print ((traceTokens [] range t.stop ts).prepend [t.textEvent, .exit]) =
            .error .strayExit := by
          simp [Printer.print, Trace.prepend, Printer.run, Printer.step, Token.textEvent,
            hp.frames_eq, bind, Except.bind]
        rw [hprint]
        exact .refused _ rfl
      · obtain ⟨rfl, hcloses⟩ := hcloses.closer hgb
        obtain ⟨below, more, rfl⟩ := List.exists_cons_of_length_eq_add_one (by simpa using hlen)
        obtain ⟨p₂, h₂, hs₂⟩ := Printer.exists_writes_exit hs₁
        have hwrites : p.Writes [t.textEvent, .exit] _ p₂ := h₁.trans h₂
        rw [hwrites.print_prepend]
        exact (ih hts hs₂ (by simpa using hlen) (hcloses.items htail)).token
          (openAfter_closer hc stack ts)
    | separator | space | symbol =>
      have hitem : t.cls.isBracket = false := by rw [hc]; rfl
      obtain ⟨hko, hkc⟩ := hat.formed.kind_item hitem
      have hevents : t.events [] range ts =
          ⟨t.textEvent :: if t.kind = .separator then [.gap] else [], none⟩ :=
        Token.events_item hko hkc ts
      obtain ⟨p₂, is, col', h₂, hs₂⟩ : ∃ p₂ is col',
          p₁.Writes (if t.kind = .separator then [.gap] else []) is p₂ ∧
            p₂.Stands page (top :: below) col' := by
        split_ifs
        · obtain ⟨p₂, h₂, hs₂⟩ := Printer.exists_writes_gap hs₁ hx₁
          exact ⟨p₂, _, _, h₂, hs₂⟩
        · exact ⟨p₁, _, _, Printer.writes_nil p₁, hs₁⟩
      have hwrites : p.Writes (t.textEvent :: if t.kind = .separator then [.gap] else []) _ p₂ :=
        h₁.trans h₂
      rw [traceTokens_shown hat rfl hevents hts, hwrites.print_prepend]
      exact (ih hts hs₂ hlen (hcloses.items (hat.formed.glyphs_item hitem))).token
        (openAfter_item hitem stack ts)

/-! ### What the regions tell -/

/-- The brackets around the region belong together. -/
def Source.Paired (src : Source) (r : Region) : Prop :=
  ∃ b, src[(r.start - 1).toNat]?.map Glyph.cls = some (.opener b) ∧
    src[r.stop.toNat]?.map Glyph.cls = some (.closer b)

theorem Source.GroupAt.paired {src : Source} {p q : Nat} (h : src.GroupAt p q) (depth : Int) :
    src.Paired ⟨p + 1, q, depth⟩ := by
  obtain ⟨b, o, c, ho, hob, hc, hcb, -⟩ := h
  exact ⟨b, by simp [ho, hob], by simp [hc, hcb]⟩

theorem Token.At.map_cls {src : Source} {i : Nat} {t : Token} (h : t.At src i) :
    src[t.start]?.map Glyph.cls = some t.cls := by
  obtain ⟨g, tail, hg, -⟩ := h.formed
  have hlt := h.formed.lt_stop
  have hfirst : src[t.start]? = (src.window t.extent)[0]? := by
    simp only [Source.window, Token.extent, List.getElem?_take, List.getElem?_drop]
    rw [if_pos (by omega), Nat.add_zero]
  rw [hfirst, ← h.reads, Token.cls, hg]
  rfl

/-- The walk keeps the regions that are complete, in the open groups and inside them. -/
theorem subset_of_nest {ts : List Token} : ∀ {opened : List OpenGroup} {done rs : List Region},
    nest opened done ts = .ok rs → done ⊆ rs ∧ ∀ g ∈ opened, g.before ⊆ rs := by
  induction ts with
  | nil =>
    intro opened done rs h
    rcases opened with _ | ⟨g, outer⟩
    · obtain rfl : done = rs := by simpa [nest] using h
      simp
    · simp [nest] at h
  | cons t ts ih =>
    intro opened done rs h
    cases hk : t.kind with
    | opener =>
      rw [nest_opener hk] at h
      have hbefore := (ih h).2
      exact ⟨hbefore _ List.mem_cons_self, fun g hg => hbefore g (List.mem_cons_of_mem _ hg)⟩
    | closer =>
      rcases opened with _ | ⟨g, outer⟩
      · simp [nest, hk] at h
      · rw [nest_closer hk] at h
        obtain ⟨hdone, hbefore⟩ := ih h
        obtain ⟨hg, hdone⟩ := List.append_subset.mp hdone
        refine ⟨fun r hr => hdone (List.mem_cons_of_mem _ hr), fun g' hg' => ?_⟩
        rcases List.mem_cons.mp hg' with rfl | hg'
        · exact hg
        · exact hbefore g' hg'
    | separator | space | symbol =>
      rw [nest_item (by simp [hk]) (by simp [hk])] at h
      exact ih h

/-- **Where every region stands between brackets that belong together, the groups close.** The stack
holds the brackets of the groups that are open. -/
theorem openAfter_of_nest {src : Source} {ts : List Token} : ∀ {i : Nat} {opened : List OpenGroup}
    {done rs : List Region} {stack : List Bracket}, Tiled src i ts →
      List.Forall₂ (fun g b => src[g.opener]?.map Glyph.cls = some (.opener b)) opened stack →
        nest opened done ts = .ok rs → (∀ r ∈ rs, src.Paired r) →
          openAfter Token.cls stack ts = some [] := by
  induction ts with
  | nil =>
    intro i opened done rs stack _ hst h _
    cases hst with
    | nil => rfl
    | cons => simp [nest] at h
  | cons t ts ih =>
    rintro i opened done rs stack ⟨hat, hts⟩ hst h hpaired
    cases hc : t.cls with
    | opener b =>
      rw [nest_opener (hat.formed.kind_opener hc)] at h
      rw [openAfter_opener hc]
      exact ih hts (.cons (by rw [hat.map_cls, hc]) hst) h hpaired
    | closer b =>
      have hk := hat.formed.kind_closer hc
      cases hst with
      | nil => simp [nest, hk] at h
      | @cons g b' outer stack hgb hst =>
        rw [nest_closer hk] at h
        -- the region that ends here is one of those returned, so its brackets belong together
        obtain ⟨b'', ho, hcl⟩ := hpaired _ ((subset_of_nest h).1
          (List.mem_append_right _ List.mem_cons_self))
        obtain rfl : b' = b'' := by simpa [hgb] using ho
        obtain rfl : b = b' := by simpa [hat.map_cls, hc] using hcl
        rw [openAfter_closer hc]
        exact ih hts hst h hpaired
    | separator | space | symbol =>
      have hitem : t.cls.isBracket = false := by rw [hc]; rfl
      obtain ⟨hko, hkc⟩ := hat.formed.kind_item hitem
      rw [nest_item hko hkc] at h
      rw [openAfter_item hitem]
      exact ih hts hst h hpaired

/-! ### The stretches that are laid out -/

namespace Source

variable {src : Source} {e : Extent}

theorem balanced_of_tokens (he : e.start ≤ e.stop)
    (h : openAfter Token.cls [] (src.tokens e) = some []) : src.Balanced e.start e.stop := by
  rw [openAfter_tokens (tiled_tokens src e).formed, flatMap_glyphs_tokens] at h
  exact ⟨he, nested_iff_openAfter.mpr h⟩

/-- How the layout of a stretch ends, on a line of any width. -/
theorem printEnd_layOut (hlen : e.stop ≤ src.length) (width unit indent : Int) :
    PrintEnd [] (src.tokens e) (layOut src e width unit indent []) := by
  have hstands : (Printer.start width unit indent e.start).Stands ⟨[], width, unit⟩
      [⟨false, indent⟩] indent := ⟨rfl, rfl, rfl, rfl⟩
  have htrace : src.trace e [] = traceTokens [] e e.start (src.tokens e) := by
    rw [trace, readTokens_eq_ok hlen]
  rw [layOut, htrace]
  exact printEnd_of_tiled (tiled_tokens src e) hstands rfl (Closes.nil _)

theorem Balanced.exists_layOut (h : src.Balanced e.start e.stop) (hlen : e.stop ≤ src.length)
    (width unit indent : Int) : ∃ is, layOut src e width unit indent [] = .ok is := by
  obtain ⟨f, hw, hl⟩ := exists_laid h hlen
  exact ⟨_, layOut_eq_breaks ⟨[], width, unit⟩ (by simp) hlen hw hl f.agrees_nil indent⟩

theorem Balanced.exists_paired (h : src.Balanced e.start e.stop) (hlen : e.stop ≤ src.length) :
    ∃ rs, src.regions e = .ok rs ∧ ∀ r ∈ rs, src.Paired r := by
  obtain ⟨f, hw, hl⟩ := exists_laid h hlen
  refine ⟨_, regions_eq_of_laid hlen hw hl, fun r hr => ?_⟩
  have hzero : src.depthFrom e.start e.start = 0 := by simp [depthFrom]
  obtain ⟨p, q, hg, -, -, rfl⟩ := hl.exists_groupAt (Nat.le_refl _) (hzero.symm ▸ hr)
  exact hg.paired _

theorem balanced_of_paired (he : e.start ≤ e.stop) (hlen : e.stop ≤ src.length) {rs : List Region}
    (h : src.regions e = .ok rs) (hpaired : ∀ r ∈ rs, src.Paired r) :
    src.Balanced e.start e.stop := by
  rw [regions, readTokens_eq_ok hlen] at h
  exact balanced_of_tokens he (openAfter_of_nest (tiled_tokens src e) .nil h hpaired)

/-- Nothing but an internal fault keeps a stretch from having regions. -/
theorem isInternal_of_regions (hlen : e.stop ≤ src.length) {f : Fault}
    (h : src.regions e = .error f) : f.isInternal = true := by
  have hout := regions_outcome hlen
  rw [h] at hout
  cases hout <;> rfl

end Source

/-- **A stretch is laid out iff it has regions, and each of them stands between brackets that belong
together.** The layout fails with an internal fault iff the regions do, or one of them stands
between brackets of two kinds; neither fails in any other way. So whatever is laid out can be
folded, and what can be folded is laid out iff its brackets belong together. -/
theorem layOut_fails_iff (src : Source) (e : Extent) (he : e.start ≤ e.stop)
    (hlen : e.stop ≤ src.length) (width unit indent : Int) :
    ((∃ f, layOut src e width unit indent [] = .error f ∧ f.isInternal = true) ↔
      (∃ f, src.regions e = .error f ∧ f.isInternal = true) ∨
        ∃ rs, src.regions e = .ok rs ∧ ∃ r ∈ rs, ¬ src.Paired r) ∧
    (∀ f, layOut src e width unit indent [] = .error f → f.isInternal = true) ∧
    (∀ f, src.regions e = .error f → f.isInternal = true) ∧
    (∀ is, layOut src e width unit indent [] = .ok is → ∃ rs, src.regions e = .ok rs) ∧
    ∀ rs, src.regions e = .ok rs →
      ((∃ is, layOut src e width unit indent [] = .ok is) ↔ ∀ r ∈ rs, src.Paired r) := by
  have hprint := Source.printEnd_layOut hlen width unit indent
  have hinternal : ∀ f, layOut src e width unit indent [] = .error f → f.isInternal = true := by
    intro f hf
    rw [hf] at hprint
    cases hprint with
    | refused f h => exact h
  have hbalanced : ∀ is, layOut src e width unit indent [] = .ok is →
      src.Balanced e.start e.stop := by
    intro is his
    rw [his] at hprint
    cases hprint with
    | laid is h => exact Source.balanced_of_tokens he h
  have hiff : ∀ rs, src.regions e = .ok rs →
      ((∃ is, layOut src e width unit indent [] = .ok is) ↔ ∀ r ∈ rs, src.Paired r) := by
    intro rs hrs
    refine ⟨fun ⟨is, his⟩ => ?_, fun hp =>
      (Source.balanced_of_paired he hlen hrs hp).exists_layOut hlen width unit indent⟩
    obtain ⟨rs', hrs', hp⟩ := (hbalanced is his).exists_paired hlen
    obtain rfl : rs' = rs := by simpa [hrs'] using hrs
    exact hp
  have hregions : ∀ is, layOut src e width unit indent [] = .ok is →
      ∃ rs, src.regions e = .ok rs := by
    intro is his
    obtain ⟨rs, hrs, -⟩ := (hbalanced is his).exists_paired hlen
    exact ⟨rs, hrs⟩
  refine ⟨⟨?_, ?_⟩, hinternal, fun f => Source.isInternal_of_regions hlen, hregions, hiff⟩
  · rintro ⟨f, hf, -⟩
    cases hrs : src.regions e with
    | error f' => exact Or.inl ⟨f', rfl, Source.isInternal_of_regions hlen hrs⟩
    | ok rs =>
      refine Or.inr ⟨rs, rfl, ?_⟩
      by_contra hall
      obtain ⟨is, his⟩ := (hiff rs hrs).mpr (by simpa using hall)
      simp [hf] at his
  · intro h
    cases hl : layOut src e width unit indent [] with
    | error f => exact ⟨f, rfl, hinternal f hl⟩
    | ok is =>
      exfalso
      rcases h with ⟨f, hf, -⟩ | ⟨rs, hrs, r, hr, hnot⟩
      · obtain ⟨rs, hrs⟩ := hregions is hl
        simp [hf] at hrs
      · exact hnot ((hiff rs hrs).mp ⟨is, hl⟩ r hr)

/-- A group closed by a bracket of another kind, inside one that is whole. -/
theorem layOut_fails_iff_mixed :
    let src := Source.ofText "f<(a]>".toList
    src.regions ⟨0, 6⟩ = .ok [⟨2, 5, 1⟩, ⟨3, 4, 2⟩] ∧ src.Paired ⟨2, 5, 1⟩ ∧
      ¬ src.Paired ⟨3, 4, 2⟩ ∧
      ∃ f, layOut src ⟨0, 6⟩ 80 2 0 [] = .error f ∧ f.isInternal = true := by
  have hnot : ¬ (Source.ofText "f<(a]>".toList).Paired ⟨3, 4, 2⟩ := by
    rintro ⟨b, ho, hc⟩
    cases b <;> revert ho hc <;> decide
  refine ⟨by decide +kernel, ⟨.angle, by decide +kernel, by decide +kernel⟩, hnot, ?_⟩
  exact (layOut_fails_iff _ ⟨0, 6⟩ (by decide) (by decide) 80 2 0).1.mpr
    (Or.inr ⟨[⟨2, 5, 1⟩, ⟨3, 4, 2⟩], by decide +kernel, ⟨3, 4, 2⟩, by simp, hnot⟩)

/-- The regions alone do not tell whether the layout fails: a round bracket closed by a square one
has a region, and no layout. -/
theorem regions_of_mixed_group :
    let src := Source.ofText "(]".toList
    src.regions ⟨0, 2⟩ = .ok [⟨1, 1, 1⟩] ∧
      layOut src ⟨0, 2⟩ 10 2 0 [] = .error (.unbalanced 0 0 2) ∧
      ¬ ((∃ f, src.regions ⟨0, 2⟩ = .error f ∧ f.isInternal = true) ↔
        ∃ f, layOut src ⟨0, 2⟩ 10 2 0 [] = .error f ∧ f.isInternal = true) := by
  have hregions : (Source.ofText "(]".toList).regions ⟨0, 2⟩ = .ok [⟨1, 1, 1⟩] := by decide +kernel
  have hlayOut : layOut (Source.ofText "(]".toList) ⟨0, 2⟩ 10 2 0 [] =
      .error (.unbalanced 0 0 2) := by decide +kernel
  refine ⟨hregions, hlayOut, fun hiff => ?_⟩
  obtain ⟨f, hf, -⟩ := hiff.mpr ⟨_, hlayOut, rfl⟩
  cases hregions.symm.trans hf

end DiagLayout
