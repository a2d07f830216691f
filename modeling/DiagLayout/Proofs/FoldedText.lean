import DiagLayout.Proofs.ShownText

/-!
# The layout of folded text

To lay out a stretch with some of it hidden is the same as to lay out the folded text. The tokens of
the folded text are the tokens that are shown, with one symbol in each placeholder
(`Layable.tokensFrom_folded`): where a token ends is settled by the glyphs up to the next bracket
(`tokenTail_lead`), and a hidden interior stands between brackets. The forest of these tokens fills
the lines as the forest with hidden groups does (`Layable.breaks_folded`).

The main result is `layout_of_folded_text`.
-/

namespace DiagLayout

/-! ### Where a token ends -/

/-- The glyphs up to the first bracket, with it. -/
def lead : List Glyph → List Glyph
  | [] => []
  | g :: gs => if g.cls.isBracket then [g] else g :: lead gs

theorem lead_bracket {g : Glyph} (h : g.cls.isBracket = true) (gs : List Glyph) :
    lead (g :: gs) = [g] := by
  simp [lead, h]

theorem lead_append {gs : List Glyph} (h : ∀ x ∈ gs, x.cls.isBracket = false) (w : List Glyph) :
    lead (gs ++ w) = gs ++ lead w := by
  induction gs with
  | nil => rfl
  | cons g gs ih =>
    have hg := h g List.mem_cons_self
    rw [List.cons_append, lead, if_neg (by simp [hg]),
      ih fun x hx => h x (List.mem_cons_of_mem _ hx)]
    rfl

theorem head?_lead (gs : List Glyph) : (lead gs).head? = gs.head? := by
  cases gs with
  | nil => rfl
  | cons g gs =>
    unfold lead
    split_ifs <;> rfl

/-- A run ends before the first bracket. -/
theorem runLength_lead {k : Kind} (ho : k ≠ .opener) (hc : k ≠ .closer) (gs : List Glyph) :
    runLength k (lead gs) = runLength k gs ∧
      (lead gs).drop (runLength k gs) = lead (gs.drop (runLength k gs)) := by
  induction gs with
  | nil => exact ⟨rfl, rfl⟩
  | cons g gs ih =>
    by_cases hk : g.isKind k = true
    · have hb := not_isBracket_of_isKind ho hc hk
      have hlead : lead (g :: gs) = g :: lead gs := by simp [lead, hb]
      have hrun : ∀ w, runLength k (g :: w) = runLength k w + 1 := by
        intro w
        simp [runLength, hk]
      rw [hlead, hrun, hrun, List.drop_succ_cons, List.drop_succ_cons, ih.1]
      exact ⟨rfl, ih.2⟩
    · have hrun : ∀ w, runLength k (g :: w) = 0 := by
        intro w
        simp [runLength, hk]
      have hstart : runLength k (lead (g :: gs)) = 0 := by
        unfold lead
        split_ifs
        · exact hrun []
        · exact hrun _
      rw [hstart, hrun]
      exact ⟨rfl, rfl⟩

/-- **Where a token ends is settled by the glyphs up to the next bracket.** -/
theorem tokenTail_lead (k : Kind) (gs : List Glyph) : tokenTail k (lead gs) = tokenTail k gs := by
  obtain ⟨hsep, hsepd⟩ := runLength_lead (k := .separator) (by simp) (by simp) gs
  obtain ⟨hsp, hspd⟩ := runLength_lead (k := .space) (by simp) (by simp) gs
  obtain ⟨hsym, -⟩ := runLength_lead (k := .symbol) (by simp) (by simp) gs
  cases k with
  | separator =>
    simp only [tokenTail]
    rw [hsep, hsepd, (runLength_lead (by simp) (by simp) _).1]
  | opener => rfl
  | closer =>
    simp only [tokenTail]
    rw [hsp, hspd, head?_lead]
  | space => exact hsp
  | symbol => exact hsym

theorem tokenTail_congr {k : Kind} {tail w w' : List Glyph}
    (htail : ∀ x ∈ tail, x.cls.isBracket = false) (hw : lead w = lead w') :
    tokenTail k (tail ++ w) = tokenTail k (tail ++ w') := by
  rw [← tokenTail_lead, lead_append htail, hw, ← lead_append htail, tokenTail_lead]

/-! ### Cutting token by token -/

theorem tokensFrom_token {t : Token} {g : Glyph} {tail w : List Glyph} (hg : t.glyphs = g :: tail)
    (hk : t.kind = g.kind) (hn : tokenTail g.kind (tail ++ w) = tail.length) :
    tokensFrom t.start (t.glyphs ++ w) = t :: tokensFrom t.stop w := by
  have hstop : t.stop = t.start + (tail.length + 1) := by simp [Token.stop, hg]
  rw [hg, List.cons_append, tokensFrom, hn, List.take_left, List.drop_left, hstop, ← hk, ← hg]

theorem eq_of_tokensFrom_token {t : Token} {i : Nat} {g : Glyph} {tail w : List Glyph}
    {ts : List Token} (hg : t.glyphs = g :: tail) (h : tokensFrom i (t.glyphs ++ w) = t :: ts) :
    t.kind = g.kind ∧ tokenTail g.kind (tail ++ w) = tail.length ∧ ts = tokensFrom t.stop w := by
  rw [hg, List.cons_append, tokensFrom] at h
  obtain ⟨ht, hts⟩ := List.cons.inj h
  have hk : t.kind = g.kind := by rw [← ht]
  have hi : t.start = i := by rw [← ht]
  have hn : tokenTail g.kind (tail ++ w) = tail.length := by
    have hglyphs : g :: (tail ++ w).take (tokenTail g.kind (tail ++ w)) = g :: tail := by
      rw [← hg, ← ht]
    have hlen := congrArg List.length (List.cons.inj hglyphs).2
    rw [List.length_take] at hlen
    have := tokenTail_le g.kind (tail ++ w)
    omega
  refine ⟨hk, hn, ?_⟩
  have hstop : t.stop = i + (tail.length + 1) := by simp [Token.stop, hg, hi]
  rw [← hts, hn, List.drop_left, hstop]

/-- What is cut behind a forest is cut from what stands behind it. -/
theorem Laid.eq_tokensFrom {src : Source} {i j : Nat} {f : Forest Token} (h : Laid src i f j) :
    ∀ {w : List Glyph} {ts : List Token},
      tokensFrom i (f.word.flatMap Token.glyphs ++ w) = f.word ++ ts → ts = tokensFrom j w := by
  have hstep : ∀ {t : Token} {i : Nat} {w : List Glyph} {ts : List Token}, t.At src i →
      tokensFrom i (t.glyphs ++ w) = t :: ts → ts = tokensFrom t.stop w := by
    intro t i w ts ht hcut
    obtain ⟨g, tail, hg, -⟩ := ht.formed
    exact (eq_of_tokensFrom_token hg hcut).2.2
  induction h with
  | nil => intro w ts hcut; exact hcut.symm
  | item ht _ _ ih =>
    intro w ts hcut
    simp only [Forest.word, List.flatMap_cons, List.append_assoc, List.cons_append] at hcut
    exact ih (hstep ht hcut).symm
  | group ho _ _ hc _ _ ihi ihr =>
    intro w ts hcut
    simp only [Forest.word, List.flatMap_cons, List.flatMap_append, List.append_assoc,
      List.cons_append] at hcut
    have hinner := ihi (hstep ho hcut).symm
    exact ihr (hstep hc hinner.symm).symm

/-! ### The tokens of the folded text -/

/-- The token in the place where it is shown. -/
def Token.shown (hidden : List Placeholder) (t : Token) : Token :=
  { t with start := (shownOffset hidden t.start).toNat }

/-- The tokens of a placeholder: one symbol, if it is not empty. -/
def Placeholder.forest (p : Placeholder) (start : Nat) : Forest Token :=
  if p.text = [] then .nil else .item ⟨.symbol, start, p.glyphs⟩ .nil

/-- What is shown behind the position `x`: the tokens of the placeholder there, or else the forest.
-/
def Forest.orPlaceholder (hidden : List Placeholder) (x : Nat) (f : Forest Token) : Forest Token :=
  match placeholderAt hidden x with
  | some p => p.forest (shownOffset hidden x).toNat
  | none => f

/-- **The forest of the folded text.** -/
def Forest.folded (hidden : List Placeholder) : Forest Token → Forest Token
  | nil => nil
  | item t rest => item (t.shown hidden) (rest.folded hidden)
  | group o inner c rest =>
    group (o.shown hidden) ((inner.folded hidden).orPlaceholder hidden o.stop) (c.shown hidden)
      (rest.folded hidden)

theorem Placeholder.flatMap_glyphs_forest (p : Placeholder) (start : Nat) :
    (p.forest start).word.flatMap Token.glyphs = p.glyphs := by
  unfold forest
  split_ifs with h
  · simp [Forest.word, glyphs, h]
  · simp [Forest.word]

theorem Placeholder.fits_forest (p : Placeholder) (start : Nat) :
    (p.forest start).Fits Token.cls := by
  unfold forest
  split_ifs with h
  · trivial
  · refine ⟨?_, trivial⟩
    obtain ⟨c, text, htext⟩ := List.exists_cons_of_ne_nil h
    simp [Token.cls, glyphs, htext, CharClass.isBracket]

theorem Placeholder.column_forest (p : Placeholder) (start : Nat) (page : Page) (top : Frame)
    (col : Int) : (p.forest start).column page top col = col + p.text.length := by
  unfold forest
  split_ifs with h
  · simp [Forest.column, h]
  · simp [Forest.column, Token.past]

theorem Placeholder.breaks_forest (p : Placeholder) (start : Nat) (page : Page) (top : Frame)
    (col : Int) : (p.forest start).breaks page top col = [] := by
  unfold forest
  split_ifs
  · rfl
  · simp [Forest.breaks]

theorem Forest.fits_folded (hidden : List Placeholder) {f : Forest Token}
    (h : f.Fits Token.cls) : (f.folded hidden).Fits Token.cls := by
  induction f with
  | nil => trivial
  | item t rest ih => exact ⟨h.1, ih h.2⟩
  | group o inner c rest ihi ihr =>
    obtain ⟨hb, hi, hr⟩ := h
    refine ⟨hb, ?_, ihr hr⟩
    unfold orPlaceholder
    cases placeholderAt hidden o.stop with
    | some p => exact p.fits_forest _
    | none => exact ihi hi

/-- The folded text has the same glyphs up to the first bracket. -/
theorem Laid.lead_folded {src : Source} {i j : Nat} {f : Forest Token} (h : Laid src i f j)
    (hidden : List Placeholder) {w w' : List Glyph} (hw : lead w = lead w') :
    lead (f.word.flatMap Token.glyphs ++ w) =
      lead ((f.folded hidden).word.flatMap Token.glyphs ++ w') := by
  induction h with
  | nil => exact hw
  | item ht hb _ ih =>
    have hitem := ht.formed.glyphs_item hb
    simp only [Forest.folded, Forest.word, List.flatMap_cons, List.append_assoc]
    rw [lead_append hitem, ih]
    exact (lead_append hitem _).symm
  | @group i j b o c inner rest ho hob _ _ _ _ _ _ =>
    obtain ⟨g, hg, hgb⟩ := ho.formed.glyphs_opener hob
    have hbracket : g.cls.isBracket = true := by rw [hgb]; rfl
    simp only [Forest.folded, Forest.word, List.flatMap_cons, Token.shown, hg, List.cons_append,
      List.nil_append]
    rw [lead_bracket hbracket, lead_bracket hbracket]

/-- A placeholder in front of a closer is one token. -/
theorem tokensFrom_placeholder {p : Placeholder} {start : Nat} {b : Bracket} {g : Glyph}
    (hg : g.cls = .closer b) (w : List Glyph) :
    tokensFrom start (p.glyphs ++ g :: w) =
      (p.forest start).word ++ tokensFrom (start + p.text.length) (g :: w) := by
  unfold Placeholder.forest
  split_ifs with h
  · simp [Placeholder.glyphs, h, Forest.word]
  · obtain ⟨c, text, htext⟩ := List.exists_cons_of_ne_nil h
    have hglyphs : p.glyphs = ⟨c, .symbol⟩ :: text.map fun c => ⟨c, .symbol⟩ := by
      simp [Placeholder.glyphs, htext]
    have hrun : tokenTail .symbol (text.map (fun c => ⟨c, .symbol⟩) ++ g :: w) =
        (text.map fun c => (⟨c, .symbol⟩ : Glyph)).length := by
      have hend : g.isKind .symbol = false := by simp [Glyph.isKind, Glyph.kind, hg, CharClass.kind]
      unfold tokenTail runLength
      simp only
      rw [List.takeWhile_append_of_pos (by simp [Glyph.isKind, Glyph.kind, CharClass.kind]),
        List.takeWhile_cons_of_neg (by simp [hend]), List.append_nil]
    have hcut := tokensFrom_token (t := ⟨.symbol, start, p.glyphs⟩) (w := g :: w) hglyphs rfl hrun
    rw [hcut]
    simp [Forest.word, Token.stop]

namespace Layable

variable {n : Nat} {instructions : List Instruction} {hidden : List Placeholder}
  (hlay : Layable n instructions hidden) {src : Source} {i j : Nat} {f : Forest Token}
include hlay

theorem start_shown {t : Token} (h : Atom.Apart (hidden.map Placeholder.atom) t.start t.stop) :
    ((t.shown hidden).start : Int) = shownOffset hidden t.start :=
  Int.toNat_of_nonneg (hlay.shownOffset_nonneg
    (free_of_apart h (Nat.le_refl _) (Nat.le_add_right _ _)))

theorem stop_shown {t : Token} (h : Atom.Apart (hidden.map Placeholder.atom) t.start t.stop) :
    ((t.shown hidden).stop : Int) = shownOffset hidden t.stop := by
  have hstart := hlay.start_shown h
  have hoff := shownOffset_apart hlay.span_lt h (Nat.le_add_right _ _)
  have hstop : (t.shown hidden).stop = (t.shown hidden).start + t.glyphs.length := rfl
  have hstop' : t.stop = t.start + t.glyphs.length := rfl
  omega

/-- **The glyphs of the folded text** are those of its forest. -/
theorem along_foldedAt (hl : Laid src i f j) : f.Folds hidden →
    along (src.foldedAt hidden) i j = (f.folded hidden).word.flatMap Token.glyphs := by
  induction hl with
  | nil => intro _; exact along_eq_nil fun p h1 h2 => by omega
  | @item i j t rest ht _ hr ih =>
    rintro ⟨hap, hrest⟩
    obtain ⟨hs, hlt, hle⟩ := Laid.item_bounds ht hr
    rw [along_append (show i ≤ t.stop by omega) hle, hlay.along_foldedAt_token ht hap, ih hrest]
    rfl
  | @group i j b o c inner rest ho hob hi hc hcb hr ihi ihr =>
    rintro ⟨hapo, hapc, hinner, hrest⟩
    obtain ⟨hos, hostop, hile, hlt, hrle⟩ := Laid.group_bounds ho hob hi hc hr
    have hmid : along (src.foldedAt hidden) o.stop c.start =
        ((inner.folded hidden).orPlaceholder hidden o.stop).word.flatMap Token.glyphs := by
      unfold Forest.orPlaceholder
      cases hat : placeholderAt hidden o.stop with
      | some p =>
        rw [hat] at hinner
        obtain ⟨hp, hs⟩ := placeholderAt_eq_some hat
        simp only [p.flatMap_glyphs_forest]
        exact hlay.along_foldedAt_span src hp hs (by rw [hinner])
      | none =>
        rw [hat] at hinner
        exact ihi hinner
    rw [along_append (show i ≤ o.stop by omega) (show o.stop ≤ j by omega),
      along_append hile (show c.start ≤ j by omega), along_append (Nat.le_of_lt hlt) hrle,
      hlay.along_foldedAt_token ho hapo, hlay.along_foldedAt_token hc hapc, hmid, ihr hrest]
    simp [Forest.folded, Forest.word, Token.shown]

/-- A token ends where it ended, if the same glyphs follow up to the next bracket. -/
theorem tokensFrom_shown {t : Token} {w : List Glyph} {ts : List Token} (w' : List Glyph)
    (ht : t.At src i) (hap : Atom.Apart (hidden.map Placeholder.atom) t.start t.stop)
    (hw : t.kind ≠ .opener → lead w = lead w') (hcut : tokensFrom i (t.glyphs ++ w) = t :: ts) :
    tokensFrom (shownOffset hidden i).toNat (t.glyphs ++ w') =
      t.shown hidden :: tokensFrom (shownOffset hidden t.stop).toNat w' := by
  obtain ⟨g, tail, hg, -, htail, hopen⟩ := ht.formed
  obtain ⟨hk, hn, -⟩ := eq_of_tokensFrom_token hg hcut
  have hn' : tokenTail g.kind (tail ++ w') = tail.length := by
    by_cases ho : t.kind = .opener
    · rw [hopen ho, ← hk, ho]
      rfl
    · rw [← hn, tokenTail_congr htail (hw ho)]
  have hcut' := tokensFrom_token (t := t.shown hidden) hg hk hn'
  have hstop := hlay.stop_shown hap
  rw [← hstop, Int.toNat_natCast, ← ht.start_eq]
  exact hcut'

/-- A placeholder in front of a closer ends where its span is shown to end. -/
theorem tokensFrom_hidden {p : Placeholder} (hp : p ∈ hidden) {start stop : Nat}
    (hspan : p.span = ⟨start, stop⟩) (hfree : Free hidden start) {b : Bracket} {g : Glyph}
    (hg : g.cls = .closer b) (w : List Glyph) :
    tokensFrom (shownOffset hidden start).toNat (p.glyphs ++ g :: w) =
      (p.forest (shownOffset hidden start).toNat).word ++
        tokensFrom (shownOffset hidden stop).toNat (g :: w) := by
  have hoff := hlay.shownOffset_stop hp
  have hnonneg := hlay.shownOffset_nonneg hfree
  rw [hspan] at hoff
  simp only at hoff
  rw [tokensFrom_placeholder hg]
  congr 2
  omega

/-- **The tokens of the folded text.** If the tokens of the forest are cut from its glyphs, then the
tokens of the folded forest are cut from what is shown of them. -/
theorem tokensFrom_folded (hl : Laid src i f j) : f.Folds hidden → ∀ {w w' : List Glyph},
    lead w = lead w' →
    tokensFrom i (f.word.flatMap Token.glyphs ++ w) = f.word ++ tokensFrom j w →
    tokensFrom (shownOffset hidden i).toNat
        ((f.folded hidden).word.flatMap Token.glyphs ++ w') =
      (f.folded hidden).word ++ tokensFrom (shownOffset hidden j).toNat w' := by
  induction hl with
  | nil => intro _ w w' _ _; rfl
  | @item i j t rest ht hb hr ih =>
    rintro ⟨hap, hrest⟩ w w' hw hcut
    simp only [Forest.word, Forest.folded, List.flatMap_cons, List.append_assoc,
      List.cons_append] at hcut ⊢
    obtain ⟨g, tail, hg, -⟩ := ht.formed
    have hcut' := (eq_of_tokensFrom_token hg hcut).2.2
    have htoken := hlay.tokensFrom_shown _ ht hap (fun _ => hr.lead_folded hidden hw) hcut
    rw [← ih hrest hw hcut'.symm]
    exact htoken
  | @group i j b o c inner rest ho hob hi hc hcb hr ihi ihr =>
    rintro ⟨hapo, hapc, hinner, hrest⟩ w w' hw hcut
    obtain ⟨gc, ctail, hgc, hgcb, -⟩ := hc.formed.glyphs_closer hcb
    have hbracket : gc.cls.isBracket = true := by rw [hgcb]; rfl
    simp only [Forest.word, Forest.folded, List.flatMap_cons, List.flatMap_append,
      List.append_assoc, List.cons_append] at hcut ⊢
    -- the cuts of the original, behind the opener and behind the interior
    obtain ⟨go, otail, hgo, -⟩ := ho.formed
    have hcuti := (eq_of_tokensFrom_token hgo hcut).2.2
    have hcutc := hi.eq_tokensFrom hcuti.symm
    have hcutr := (eq_of_tokensFrom_token hgc hcutc.symm).2.2
    have hkind := ho.formed.kind_opener hob
    have hopener := hlay.tokensFrom_shown
      (((inner.folded hidden).orPlaceholder hidden o.stop).word.flatMap Token.glyphs ++
        (c.glyphs ++ ((rest.folded hidden).word.flatMap Token.glyphs ++ w')))
      ho hapo (fun h => absurd hkind h) hcut
    have hcloser := hlay.tokensFrom_shown _ hc hapc (fun _ => hr.lead_folded hidden hw) hcutc.symm
    have hbehind := ihr hrest hw hcutr.symm
    have hmid : tokensFrom (shownOffset hidden o.stop).toNat
        (((inner.folded hidden).orPlaceholder hidden o.stop).word.flatMap Token.glyphs ++
          (c.glyphs ++ ((rest.folded hidden).word.flatMap Token.glyphs ++ w'))) =
        ((inner.folded hidden).orPlaceholder hidden o.stop).word ++
          tokensFrom (shownOffset hidden c.start).toNat
            (c.glyphs ++ ((rest.folded hidden).word.flatMap Token.glyphs ++ w')) := by
      unfold Forest.orPlaceholder
      cases hat : placeholderAt hidden o.stop with
      | none =>
        rw [hat] at hinner
        refine ihi hinner ?_ (hcuti.symm.trans (by rw [hcutc]))
        rw [hgc, List.cons_append, List.cons_append, lead_bracket hbracket, lead_bracket hbracket]
      | some p =>
        rw [hat] at hinner
        simp only [p.flatMap_glyphs_forest]
        rw [hgc, List.cons_append]
        exact hlay.tokensFrom_hidden (placeholderAt_eq_some hat).1 hinner
          (free_of_apart hapo ho.formed.lt_stop.le (Nat.le_refl _)) hgcb _
    refine hopener.trans ?_
    rw [hmid, ← hbehind]
    congr 2

/-! ### The layout of the folded text -/

/-- A group has the same frame in the folded text: it starts in the same column, and it is as long.
-/
theorem frame_folded {o c : Token} (ho : o.At src i) (hi : Laid src o.stop f c.start)
    (hc : c.At src c.start) (hapo : Atom.Apart (hidden.map Placeholder.atom) o.start o.stop)
    (hapc : Atom.Apart (hidden.map Placeholder.atom) c.start c.stop) (width unit : Int)
    (top : Frame) (col : Int) :
    (Page.mk [] width unit).frame top col (o.shown hidden) (c.shown hidden) =
      (Page.mk (hidden.map Placeholder.atom) width unit).frame top col o c := by
  have hlt := hc.formed.lt_stop
  have hile := hi.le
  have hlen := hlay.columns_eq (x := o.stop) (y := c.start + 1)
    (free_of_apart hapo ho.formed.lt_stop.le (Nat.le_refl _)) (by omega)
  have hcloser := shownOffset_apart (j := c.start + 1) hlay.span_lt
    (apart_atoms_iff.mpr fun p hp => by have := apart_atoms_iff.mp hapc p hp; omega)
    (Nat.le_succ c.start)
  have hplain : Atom.columns [] ⟨(o.shown hidden).stop, (c.shown hidden).start + 1⟩ =
      Atom.columns (hidden.map Placeholder.atom) ⟨o.stop, c.start + 1⟩ := by
    have hstop := hlay.stop_shown hapo
    have hstart := hlay.start_shown hapc
    rw [hlen]
    unfold Atom.columns
    simp only [List.foldl_nil]
    omega
  unfold Page.frame
  rw [hplain]
  rfl

theorem breakAt_shown {t : Token} (hap : Atom.Apart (hidden.map Placeholder.atom) t.start t.stop)
    (frame : Frame) : frame.breakAt (t.shown hidden).stop =
      (frame.breakAt t.stop).map (Instruction.shown hidden) := by
  have hstop := hlay.stop_shown hap
  unfold Frame.breakAt
  split_ifs
  · simp [Instruction.shown, hstop]
  · rfl

/-- **The folded text is filled as the stretch is**: with breaks at the offsets where theirs are
shown. -/
theorem breaks_folded (hl : Laid src i f j) (width unit : Int) : f.Folds hidden →
    ∀ (top : Frame) (col : Int),
      (f.folded hidden).column ⟨[], width, unit⟩ top col =
        f.column ⟨hidden.map Placeholder.atom, width, unit⟩ top col ∧
      (f.folded hidden).breaks ⟨[], width, unit⟩ top col =
        (f.breaks ⟨hidden.map Placeholder.atom, width, unit⟩ top col).map
          (Instruction.shown hidden) := by
  induction hl with
  | nil => intro _ top col; exact ⟨rfl, rfl⟩
  | @item i j t rest ht _ hr ih =>
    rintro ⟨hap, hrest⟩ top col
    obtain ⟨hcol, hbreaks⟩ := ih hrest top (t.past top col)
    refine ⟨hcol, ?_⟩
    unfold Forest.breaks
    rw [List.map_append, ← hbreaks, apply_ite (List.map (Instruction.shown hidden)),
      ← hlay.breakAt_shown hap]
    rfl
  | @group i j b o c inner rest ho hob hi hc hcb hr ihi ihr =>
    rintro ⟨hapo, hapc, hinner, hrest⟩ top col
    have hframe := hlay.frame_folded ho hi hc hapo hapc width unit top col
    set page : Page := ⟨hidden.map Placeholder.atom, width, unit⟩ with hpage
    have hinside : (Page.mk [] width unit).inside top col (o.shown hidden) (c.shown hidden) =
        page.inside top col o c := by
      unfold Page.inside
      rw [hframe]
      rfl
    -- the interior, or the placeholder in its place
    have hmid : ∀ frame col, ((inner.folded hidden).orPlaceholder hidden o.stop).column
          ⟨[], width, unit⟩ frame col = page.behind o col (inner.column page frame col) ∧
        ((inner.folded hidden).orPlaceholder hidden o.stop).breaks ⟨[], width, unit⟩ frame col =
          (page.within o (inner.breaks page frame col)).map (Instruction.shown hidden) := by
      intro frame col
      unfold Page.behind Page.within Forest.orPlaceholder
      rw [show page.atoms = hidden.map Placeholder.atom from rfl, startingAt_atoms]
      cases hat : placeholderAt hidden o.stop with
      | some p => exact ⟨p.column_forest _ _ _ _, p.breaks_forest _ _ _ _⟩
      | none =>
        rw [hat] at hinner
        exact ihi hinner frame col
    -- nothing is hidden in the folded text
    have hbehind : ∀ col past, (Page.mk [] width unit).behind (o.shown hidden) col past = past :=
      fun _ _ => rfl
    have hwithin : ∀ is, (Page.mk [] width unit).within (o.shown hidden) is = is := fun _ => rfl
    unfold Forest.folded Forest.column Forest.breaks Forest.pastInterior
    rw [hframe, hinside, hbehind, hwithin, (hmid _ _).1, (hmid _ _).2, hlay.breakAt_shown hapo,
      List.map_append, List.map_append]
    obtain ⟨hcol, hbreaks⟩ := ihr hrest top
      (Forest.pastInterior page top col o inner c + c.glyphs.length)
    unfold Forest.pastInterior at hcol hbreaks
    exact ⟨hcol, by rw [← hbreaks]; rfl⟩

end Layable

theorem Forest.agrees_nil (f : Forest Token) : f.Agrees [] := by
  induction f with
  | nil => trivial
  | item t rest ih => exact ⟨rfl, ih⟩
  | group o inner c rest ihi ihr => exact ⟨rfl, rfl, Or.inr ⟨rfl, ihi⟩, ihr⟩

/-- The text of a folded source is the text with the placeholders laid over it. -/
theorem Layable.text_folded {src : Source} {hidden : List Placeholder}
    (h : Layable src.length [] hidden) : (src.folded hidden).text = overlay src.text [] hidden := by
  have hlen : src.text.length = src.length := by simp [Source.text, Glyph.text]
  rw [Layable.overlay_eq_along (by rw [hlen]; exact h), hlen]
  unfold Source.folded along
  rw [Source.text, Glyph.text, List.map_flatMap]
  exact List.flatMap_congr fun o _ => text_foldedAt src hidden o

section Stretch

variable {src : Source} {e : Extent} {f : Forest Token} {hidden : List Placeholder}
  (hlay : Layable src.length [] hidden) (hlen : e.stop ≤ src.length)
  (hl : Laid src e.start f e.stop) (hfolds : f.Folds hidden)
  (hinside : ∀ p ∈ hidden, e.start < p.span.start ∧ p.span.stop < e.stop)
include hlay hlen hl hfolds hinside

/-- The folded source: what is in front of the stretch, the forest of the folded text, and the rest.
-/
theorem folded_eq_append : src.folded hidden = src.window ⟨0, e.start⟩ ++
    ((f.folded hidden).word.flatMap Token.glyphs ++
      along (src.foldedAt hidden) e.stop src.length) := by
  have hle := hl.le
  have hbefore : Atom.Apart (hidden.map Placeholder.atom) 0 e.start := by
    refine apart_atoms_iff.mpr fun p hp => ?_
    have := hinside p hp
    omega
  unfold Source.folded
  rw [along_append (Nat.zero_le e.start) (show e.start ≤ src.length by omega),
    along_append hle hlen, hlay.along_foldedAt hl hfolds,
    along_foldedAt_apart src hbefore hlay.span_lt]

/-- The forest of the folded text ends where the stretch is shown to end. -/
theorem length_forest_folded :
    ((e.start + ((f.folded hidden).word.flatMap Token.glyphs).length : Nat) : Int) =
      shownOffset hidden e.stop := by
  have hstart := hlay.shownOffset_before fun p hp => Int.le_of_lt (hinside p hp).1
  have hfree : Free hidden e.start ∧ Free hidden e.stop := by
    constructor
    · exact fun p hp => Or.inl (Int.le_of_lt (hinside p hp).1)
    · exact fun p hp => Or.inr (Int.le_of_lt (hinside p hp).2)
  have hcount := hlay.length_along_foldedAt src hfree.2 hlen hfree.1 hl.le
  rw [hlay.along_foldedAt hl hfolds] at hcount
  omega

/-- **The folded stretch is covered by the forest of the folded text**, which is made of its
tokens. -/
theorem exists_laid_folded (hw : f.word = src.tokens e) : ∃ stop : Nat,
    (stop : Int) = shownOffset hidden e.stop ∧ stop ≤ (src.folded hidden).length ∧
    (f.folded hidden).word = (src.folded hidden).tokens ⟨e.start, stop⟩ ∧
    Laid (src.folded hidden) e.start (f.folded hidden) stop := by
  have hsplit := folded_eq_append hlay hlen hl hfolds hinside
  have hstop := length_forest_folded hlay hlen hl hfolds hinside
  have hfirst : (src.window ⟨0, e.start⟩).length = e.start := by
    have := hl.le
    rw [src.length_window _ (by simp only; omega)]
    simp
  have hwindow : (src.folded hidden).window
      ⟨e.start, e.start + ((f.folded hidden).word.flatMap Token.glyphs).length⟩ =
        (f.folded hidden).word.flatMap Token.glyphs := by
    refine Source.window_of_prefix _ ?_
    rw [hsplit, List.drop_left' hfirst]
    exact List.prefix_append _ _
  have hcut : tokensFrom e.start (f.word.flatMap Token.glyphs ++ []) =
      f.word ++ tokensFrom e.stop [] := by
    rw [List.append_nil, hl.glyphs_eq, hw]
    simp [tokensFrom, Source.tokens]
  have hword : (f.folded hidden).word = (src.folded hidden).tokens
      ⟨e.start, e.start + ((f.folded hidden).word.flatMap Token.glyphs).length⟩ := by
    have hstart := hlay.shownOffset_before fun p hp => Int.le_of_lt (hinside p hp).1
    have hcut' := hlay.tokensFrom_folded hl hfolds (w := []) rfl hcut
    rw [hstart, Int.toNat_natCast] at hcut'
    unfold Source.tokens
    rw [hwindow]
    simpa [tokensFrom] using hcut'.symm
  have htiled : Tiled (src.folded hidden) e.start ((f.folded hidden).word ++ []) := by
    have htokens := tiled_tokens (src.folded hidden)
      ⟨e.start, e.start + ((f.folded hidden).word.flatMap Token.glyphs).length⟩
    rwa [← hword, ← List.append_nil (f.folded hidden).word] at htokens
  obtain ⟨stop, hl', -, rfl⟩ := exists_laid_of_tiled (Forest.fits_folded hidden hl.fits) htiled
  refine ⟨_, hstop, ?_, hword, hl'⟩
  rw [hsplit, List.length_append, List.length_append, hfirst]
  omega

end Stretch

/-- **To lay out a folded stretch is to lay out the folded text.** A nested stretch is folded at a
level of one or more, whatever the placeholder. Its layout, with what is hidden left out, breaks
lines exactly where the layout of the folded text is shown to break them, and indents them the same.
-/
theorem layout_of_folded_text {src : Source} {e : Extent} (he : src.Balanced e.start e.stop)
    (hlen : e.stop ≤ src.length) {level : Int} (hlevel : 1 ≤ level) (placeholder : Text)
    (width unit indent : Int) : ∃ regions folding is stop, src.regions e = .ok regions ∧
      fold regions (some level) placeholder = .ok folding ∧
      (src.folded folding.placeholders).text = overlay src.text [] folding.placeholders ∧
      layOut src e width unit indent folding.atoms = .ok is ∧
      ((stop : Nat) : Int) = shownOffset folding.placeholders e.stop ∧
      layOut (src.folded folding.placeholders) ⟨e.start, stop⟩ width unit indent [] =
        .ok (is.map (Instruction.shown folding.placeholders)) := by
  have hlevel' : ∀ n ∈ some level, 1 ≤ n := by simpa using hlevel
  obtain ⟨f, folding, hw, hl, hregions, hfold, -, hfolds, hlayOut⟩ :=
    exists_folding he hlen hlevel' placeholder
  have hplaced : Placed folding.atoms e.start e.stop indent [] := Placed.nil
  have hlay : Layable src.length [] folding.placeholders := layable_of_fold hl hlen hfold hplaced
  have hinside : ∀ p ∈ folding.placeholders, e.start < p.span.start ∧ p.span.stop < e.stop := by
    intro p hp
    obtain ⟨h1, -, h2⟩ := (placeholders_apart hl hfold).2 p hp
    exact ⟨h1, h2⟩
  obtain ⟨stop, hstop, hlen', hword, hl'⟩ := exists_laid_folded hlay hlen hl hfolds hinside hw
  refine ⟨_, folding, _, stop, hregions, hfold, hlay.text_folded, hlayOut width unit indent, hstop,
    ?_⟩
  rw [layOut_eq_breaks ⟨[], width, unit⟩ (by simp) hlen' hword hl' (Forest.agrees_nil _) indent,
    (hlay.breaks_folded hl width unit hfolds _ _).2]
  rfl

/-- Two groups of the second level are hidden, one of them with a space behind its closer. -/
theorem layout_of_folded_text_pair :
    let src := Source.ofText "pair<set<int> , map<key, (a)> >".toList
    src.Balanced 0 31 ∧ ∃ regions folding is stop, src.regions ⟨0, 31⟩ = .ok regions ∧
      fold regions (some 2) "...".toList = .ok folding ∧
      (src.folded folding.placeholders).text = overlay src.text [] folding.placeholders ∧
      layOut src ⟨0, 31⟩ 12 2 0 folding.atoms = .ok is ∧
      ((stop : Nat) : Int) = shownOffset folding.placeholders 31 ∧
      layOut (src.folded folding.placeholders) ⟨0, stop⟩ 12 2 0 [] =
        .ok (is.map (Instruction.shown folding.placeholders)) := by
  intro src
  have he : src.Balanced 0 31 := ⟨by decide, nested_iff_openAfter.mpr (by decide +kernel)⟩
  exact ⟨he, layout_of_folded_text (e := ⟨0, 31⟩) he (by decide +kernel) (by decide) _ _ _ _⟩

end DiagLayout
