import DiagLayout.Proofs.Folding

/-!
# The events of a nested stretch

The walk over the tokens of a nested stretch gives the events of the forest that covers it,
`Forest.events`, and no fault (`trace_eq_of_laid`): every opener that is seen has its closer, the
tokens of a hidden group are left out, and its closer is seen again.
-/

namespace DiagLayout

/-! ### Lengths with atoms -/

/-- The columns that the positions of `e` take when the atoms inside have their own widths. -/
def Atom.columns (atoms : List Atom) (e : Extent) : Int :=
  atoms.foldl (fun (n : Int) (a : Atom) =>
    if e.start ≤ a.span.start ∧ a.span.stop ≤ e.stop then
      n - (a.span.length - a.width) else n)
    (e.stop - e.start)

/-- The length of a group is never refused, since no atom ends before it starts. -/
theorem Atom.shownLength_eq {atoms : List Atom} (h : ∀ a ∈ atoms, 0 ≤ a.span.length) (e : Extent) :
    Atom.shownLength atoms e = .ok (Atom.columns atoms e) := by
  unfold Atom.shownLength Atom.columns
  generalize ((e.stop : Int) - e.start) = n
  induction atoms generalizing n with
  | nil => rfl
  | cons a atoms ih =>
    have ha := h a List.mem_cons_self
    have hstep : Atom.shrink e n a = .ok (if e.start ≤ a.span.start ∧ a.span.stop ≤ e.stop then
        n - (a.span.length - a.width) else n) := by
      unfold Atom.shrink
      split_ifs
      · rw [Span.size?, if_neg (by omega)]; rfl
      · rfl
    rw [List.foldlM_cons, hstep, List.foldl_cons]
    exact ih (fun x hx => h x (List.mem_cons_of_mem _ hx)) _

/-! ### The events of a forest -/

/-- The text of a token. -/
def Token.textEvent (t : Token) : Event := .text t.extent.span t.glyphs.length

/-- **The events of a forest**: an atom stands for the interior of a group that is hidden. -/
def Forest.events (atoms : List Atom) : Forest Token → List Event
  | nil => []
  | item t rest =>
    t.textEvent :: ((if t.kind = .separator then [.gap] else []) ++ rest.events atoms)
  | group o inner c rest =>
    o.textEvent :: .enter (Atom.columns atoms ⟨o.stop, c.start + 1⟩) ::
      ((match Atom.startingAt atoms o.stop with
        | some a => [.text a.span a.width]
        | none => inner.events atoms) ++ c.textEvent :: .exit :: rest.events atoms)

namespace Trace

theorem prepend_prepend (es es' : List Event) (tr : Trace) :
    (tr.prepend es').prepend es = tr.prepend (es ++ es') := by
  simp [prepend]

end Trace

/-! ### The walk over the tokens -/

section Walk

variable {src : Source} {i j : Nat} {f : Forest Token} {atoms : List Atom} {range : Extent}

theorem Laid.tiled_append (h : Laid src i f j) : ∀ {ts : List Token}, Tiled src j ts →
    Tiled src i (f.word ++ ts) := by
  induction h with
  | nil => exact id
  | item ht _ _ ih => exact fun hts => ⟨ht, ih hts⟩
  | group ho _ _ hc _ _ ihi ihr =>
    intro ts hts
    simp only [Forest.word, List.cons_append, List.append_assoc]
    exact ⟨ho, ihi ⟨hc, ihr hts⟩⟩

theorem Laid.add_length (h : Laid src i f j) : i + (f.word.flatMap Token.glyphs).length = j := by
  induction h with
  | nil => rfl
  | item ht _ _ ih =>
    rw [Forest.word, List.flatMap_cons, List.length_append, ← ih, Token.stop, ht.start_eq]
    omega
  | group ho _ _ _ _ _ ihi ihr =>
    simp only [Forest.word, List.flatMap_cons, List.flatMap_append, List.length_append]
    rw [← ihr]
    simp only [Token.stop, ho.start_eq] at ihi ⊢
    omega

theorem Laid.le_start (h : Laid src i f j) : ∀ t ∈ f.word, i ≤ t.start := by
  induction h with
  | nil => simp [Forest.word]
  | item ht _ hr ih =>
    intro x hx
    obtain ⟨hs, hlt, -⟩ := Laid.item_bounds ht hr
    rcases List.mem_cons.mp hx with rfl | hx
    · omega
    · have := ih x hx; omega
  | group ho hob hi hc _ hr ihi ihr =>
    intro x hx
    obtain ⟨hos, hostop, hile, hlt, hrle⟩ := Laid.group_bounds ho hob hi hc hr
    simp only [Forest.word, List.mem_cons, List.mem_append] at hx
    rcases hx with rfl | hx | rfl | hx
    · omega
    · have := ihi x hx; omega
    · omega
    · have := ihr x hx; omega

theorem Laid.start_lt (h : Laid src i f j) : ∀ t ∈ f.word, t.start < j := by
  induction h with
  | nil => simp [Forest.word]
  | item ht _ hr ih =>
    intro x hx
    rcases List.mem_cons.mp hx with rfl | hx
    · have := ht.formed.lt_stop; have := hr.le; omega
    · exact ih x hx
  | group ho _ hi hc _ hr ihi ihr =>
    intro x hx
    have hlo := ho.formed.lt_stop
    have hlc := hc.formed.lt_stop
    have hile := hi.le
    have hrle := hr.le
    simp only [Forest.word, List.mem_cons, List.mem_append] at hx
    rcases hx with rfl | hx | rfl | hx
    · omega
    · have := ihi x hx; omega
    · omega
    · exact ihr x hx

/-- Where nothing is left to skip it does not matter from which offset on the walk looks. -/
theorem traceTokens_resume {ts : List Token} : ∀ {i : Nat} {resume : Int}, Tiled src i ts →
    resume ≤ i → traceTokens atoms range resume ts = traceTokens atoms range i ts := by
  induction ts with
  | nil => intro i resume _ _; rfl
  | cons t ts ih =>
    intro i resume h hle
    obtain ⟨hat, hts⟩ := h
    have hs := hat.start_eq
    have hlt := hat.formed.lt_stop
    have hrest : traceTokens atoms range resume ts = traceTokens atoms range i ts := by
      rw [ih hts (by omega), ih hts (show (i : Int) ≤ t.stop by omega)]
    unfold traceTokens
    rw [if_neg (by omega), if_neg (by omega), hrest]

theorem traceTokens_skip {ts : List Token} {resume : Int} (h : ∀ t ∈ ts, (t.start : Int) < resume)
    (more : List Token) :
    traceTokens atoms range resume (ts ++ more) = traceTokens atoms range resume more := by
  induction ts with
  | nil => rfl
  | cons t ts ih =>
    rw [List.cons_append, traceTokens, if_pos (h t List.mem_cons_self)]
    exact ih fun x hx => h x (List.mem_cons_of_mem _ hx)

theorem traceTokens_hidden {a : Atom} {t : Token} (hat : t.At src i)
    (h : Atom.startingAt atoms i = some a) (ts : List Token) :
    traceTokens atoms range i (t :: ts) =
      (traceTokens atoms range a.span.stop ts).prepend [.text a.span a.width] := by
  have hs := hat.start_eq
  rw [traceTokens, if_neg (by omega), hs, h]

/-- A hidden interior is one event: its first token gives it, and the others are skipped. -/
theorem traceTokens_interior {a : Atom} (h : Laid src i f j)
    (ha : Atom.startingAt atoms i = some a) (hstop : a.span.stop = j) (hne : f ≠ .nil)
    {ts : List Token} (hts : Tiled src j ts) : traceTokens atoms range i (f.word ++ ts) =
      (traceTokens atoms range j ts).prepend [.text a.span a.width] := by
  obtain ⟨t, more, hw⟩ : ∃ t more, f.word = t :: more := by
    cases f with
    | nil => exact absurd rfl hne
    | item t _ => exact ⟨t, _, rfl⟩
    | group t _ _ _ => exact ⟨t, _, rfl⟩
  have htiled := h.tiled_append hts
  have hlt := h.start_lt
  rw [hw] at htiled hlt ⊢
  have hskip : traceTokens atoms range a.span.stop (more ++ ts) =
      traceTokens atoms range j ts := by
    rw [hstop]
    exact traceTokens_skip (fun x hx => Int.ofNat_lt.mpr (hlt x (List.mem_cons_of_mem _ hx))) _
  rw [List.cons_append, traceTokens_hidden htiled.1 ha, hskip]

theorem traceTokens_shown {t : Token} {es : List Event} {ts : List Token} (hat : t.At src i)
    (h : Atom.startingAt atoms t.start = none) (he : t.events atoms range ts = ⟨es, none⟩)
    (hts : Tiled src t.stop ts) :
    traceTokens atoms range i (t :: ts) = (traceTokens atoms range t.stop ts).prepend es := by
  have hs := hat.start_eq
  have hlt := hat.formed.lt_stop
  rw [traceTokens, if_neg (by omega), h]
  simp only [he]
  rw [traceTokens_resume hts (by omega)]

theorem Token.events_item {t : Token} (ho : t.kind ≠ .opener) (hc : t.kind ≠ .closer)
    (ts : List Token) : t.events atoms range ts =
      ⟨t.textEvent :: if t.kind = .separator then [.gap] else [], none⟩ := by
  unfold Token.events Token.textEvent
  cases hk : t.kind <;> simp_all

theorem Token.events_closer {t : Token} (h : t.kind = .closer) (ts : List Token) :
    t.events atoms range ts = ⟨[t.textEvent, .exit], none⟩ := by
  simp [Token.events, Token.textEvent, h]

/-- An opener that is seen has its closer, and the group its length. -/
theorem Token.events_opener {b : Bracket} {o c : Token} {inner : Forest Token}
    (hsize : ∀ a ∈ atoms, 0 ≤ a.span.length) (ho : o.At src i) (hob : o.cls = .opener b)
    (hi : Laid src o.stop inner c.start) (hc : c.At src c.start) (hcb : c.cls = .closer b)
    (ts : List Token) : o.events atoms range (inner.word ++ c :: ts) =
      ⟨[o.textEvent, .enter (Atom.columns atoms ⟨o.stop, c.start + 1⟩)], none⟩ := by
  have hk := ho.formed.kind_opener hob
  obtain ⟨go, hgo, hgob⟩ := ho.formed.glyphs_opener hob
  obtain ⟨gc, tail, hgc, hgcb, -⟩ := hc.formed.glyphs_closer hcb
  have hlen := hi.add_length
  have hstop := ho.formed.stop_opener hob
  have hglyphs : (o :: (inner.word ++ c :: ts)).flatMap Token.glyphs =
      go :: (inner.word.flatMap Token.glyphs ++ gc :: (tail ++ ts.flatMap Token.glyphs)) := by
    simp [hgo, hgc]
  have hend : groupEnd? ((o :: (inner.word ++ c :: ts)).flatMap Token.glyphs) =
      some ((inner.word.flatMap Token.glyphs).length + 1) := by
    rw [hglyphs, groupEnd?_group hgob hgcb (by rw [hi.glyphs_eq]; exact hi.balanced.nested)]
  have hclose : o.start + ((inner.word.flatMap Token.glyphs).length + 1) + 1 = c.start + 1 := by
    omega
  unfold Token.events
  rw [hk]
  simp only [hend, hclose, Atom.shownLength_eq hsize]
  rfl

/-- **The walk over a forest gives its events.** -/
theorem traceTokens_forest (hsize : ∀ a ∈ atoms, 0 ≤ a.span.length) (h : Laid src i f j) :
    f.Agrees atoms → ∀ {ts : List Token}, Tiled src j ts →
      traceTokens atoms range i (f.word ++ ts) =
        (traceTokens atoms range j ts).prepend (f.events atoms) := by
  induction h with
  | nil => intro _ ts _; rfl
  | @item i j t rest ht hb hr ih =>
    intro hag ts hts
    obtain ⟨hko, hkc⟩ := ht.formed.kind_item hb
    rw [Forest.word, List.cons_append,
      traceTokens_shown ht hag.1 (Token.events_item hko hkc _) (hr.tiled_append hts), ih hag.2 hts,
      Trace.prepend_prepend, Forest.events]
    rfl
  | @group i j b o c inner rest ho hob hi hc hcb hr ihi ihr =>
    intro hag ts hts
    obtain ⟨hago, hagc, hinner, hagr⟩ := hag
    have hkc := hc.formed.kind_closer hcb
    have hrest : Tiled src c.stop (rest.word ++ ts) := hr.tiled_append hts
    have hfrom : Tiled src c.start (c :: (rest.word ++ ts)) := ⟨hc, hrest⟩
    have hword : (Forest.group o inner c rest).word ++ ts =
        o :: (inner.word ++ c :: (rest.word ++ ts)) := by simp [Forest.word]
    -- from the closer on
    have hafter : traceTokens atoms range c.start (c :: (rest.word ++ ts)) =
        (traceTokens atoms range j ts).prepend
          (c.textEvent :: .exit :: rest.events atoms) := by
      rw [traceTokens_shown hc hagc (Token.events_closer hkc _) hrest, ihr hagr hts,
        Trace.prepend_prepend]
      rfl
    -- the interior, hidden or not
    have hmid : traceTokens atoms range o.stop (inner.word ++ c :: (rest.word ++ ts)) =
        (traceTokens atoms range c.start (c :: (rest.word ++ ts))).prepend
          (match Atom.startingAt atoms o.stop with
            | some a => [.text a.span a.width]
            | none => inner.events atoms) := by
      rcases hinner with ⟨a, ha, hspan, hne⟩ | ⟨hnone, hagi⟩
      · rw [traceTokens_interior hi ha (by rw [hspan]) hne hfrom, ha]
      · rw [ihi hagi hfrom, hnone]
    rw [hword, traceTokens_shown ho hago (Token.events_opener hsize ho hob hi hc hcb _)
      (hi.tiled_append hfrom), hmid, hafter, Trace.prepend_prepend, Trace.prepend_prepend,
      Forest.events]
    rfl

/-- **The trace of a nested stretch**: the events of its forest, and no fault. -/
theorem trace_eq_of_laid {e : Extent} (hsize : ∀ a ∈ atoms, 0 ≤ a.span.length)
    (hlen : e.stop ≤ src.length) (hw : f.word = src.tokens e) (h : Laid src e.start f e.stop)
    (hag : f.Agrees atoms) : src.trace e atoms = ⟨f.events atoms, none⟩ := by
  have hwalk : traceTokens atoms e e.start (f.word ++ []) =
      (traceTokens atoms e e.stop []).prepend (f.events atoms) :=
    traceTokens_forest hsize h hag trivial
  rw [List.append_nil] at hwalk
  simp only [Source.trace, Source.readTokens_eq_ok hlen, ← hw]
  simpa [traceTokens, Trace.prepend] using hwalk

end Walk

end DiagLayout
