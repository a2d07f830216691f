import DiagLayout.Proofs.FoldedParts
import DiagLayout.Proofs.RegionStructure
import DiagLayout.Proofs.TokenPartition

/-!
# The accounts of the events

When the walk over a stretch enters a group it says how long the group is. It takes the length from
the positions of the brackets and from the whole list of atoms, before it has come to the texts of
the group. `Source.Accounts` says that the two agree: the texts tile the stretch, the groups are
left in the order in which they have to be, and the length of a group is what its texts take up to
its closer, the spaces that belong to the closer aside.

The accounts of a stretch are put together like its forest: from texts outside of groups
(`Accounts.flat`), groups (`Accounts.group`) and stretches next to each other (`Accounts.append`).
The main result is `events_account_for_lengths`.
-/

namespace DiagLayout

/-! ### Texts and groups among events -/

namespace Event

/-- The columns that an event takes. -/
def width : Event → Int
  | text _ w => w
  | _ => 0

/-- The columns that events take. -/
def widths (es : List Event) : Int := (es.map width).sum

/-- The event neither enters a group nor leaves one. -/
def isFlat : Event → Bool
  | enter _ | exit => false
  | _ => true

/-- **The texts tile the offsets from `x` to `y`**: they lie one behind the other, and none is
empty. -/
def Tile (y : Int) : Int → List Event → Prop
  | x, [] => x = y
  | x, text span _ :: es => span.start = x ∧ x < span.stop ∧ Tile y span.stop es
  | x, enter _ :: es | x, exit :: es | x, gap :: es | x, other _ :: es => Tile y x es

/-- **The groups are properly nested**: each is left where all those inside it have been left. -/
inductive Paired : List Event → Prop
  | nil : Paired []
  | flat {e : Event} {es : List Event} (he : e.isFlat = true) (hes : Paired es) : Paired (e :: es)
  | group {length : Int} {inner rest : List Event} (hinner : Paired inner) (hrest : Paired rest) :
      Paired (enter length :: (inner ++ exit :: rest))

variable {es es' : List Event}

@[simp] theorem width_text (span : Span) (w : Int) : (text span w).width = w := rfl

@[simp] theorem width_enter (length : Int) : (enter length).width = 0 := rfl

@[simp] theorem width_exit : exit.width = 0 := rfl

@[simp] theorem widths_nil : widths [] = 0 := rfl

@[simp] theorem widths_cons (e : Event) (es : List Event) :
    widths (e :: es) = e.width + widths es := by
  simp [widths]

@[simp] theorem widths_append (es es' : List Event) :
    widths (es ++ es') = widths es + widths es' := by
  simp [widths]

theorem Tile.append {y z : Int} (h' : Tile z y es') : ∀ {x : Int}, Tile y x es →
    Tile z x (es ++ es') := by
  induction es with
  | nil => rintro x rfl; exact h'
  | cons e es ih =>
    intro x h
    cases e with
    | text span w => exact ⟨h.1, h.2.1, ih h.2.2⟩
    | enter | exit | gap | other => exact ih h

theorem Paired.append (h : Paired es) (h' : Paired es') : Paired (es ++ es') := by
  induction h with
  | nil => exact h'
  | flat he _ ih => exact .flat he ih
  | group hinner _ _ ih =>
    rw [List.cons_append, List.append_assoc]
    exact .group hinner ih

theorem Paired.of_flat (h : ∀ e ∈ es, e.isFlat = true) : Paired es := by
  induction es with
  | nil => exact .nil
  | cons e es ih =>
    exact .flat (h e List.mem_cons_self) (ih fun x hx => h x (List.mem_cons_of_mem _ hx))

end Event

/-- Where a member of two lists, one behind the other, stands. -/
theorem exists_of_append_eq {α : Type} {u v before after : List α} {x : α}
    (h : u ++ v = before ++ x :: after) : (∃ rest, u = before ++ x :: rest ∧ after = rest ++ v) ∨
      ∃ outer, before = u ++ outer ∧ v = outer ++ x :: after := by
  rcases List.append_eq_append_iff.mp h with ⟨outer, hbefore, hv⟩ | ⟨rest, hu, hafter⟩
  · exact Or.inr ⟨outer, hbefore, hv⟩
  · rcases List.cons_eq_append_iff.mp hafter with ⟨rfl, hv⟩ | ⟨rest, rfl, hafter⟩
    · exact Or.inr ⟨[], by simp [hu], hv⟩
    · exact Or.inl ⟨rest, hu, (List.cons.inj hafter).2⟩

/-- Where a group is entered or left in the events of a group: at its own ends, or inside. -/
theorem Event.exists_of_group_eq {o c x : Event} {length : Int} {inner before after : List Event}
    (ho : o.isFlat = true) (hc : c.isFlat = true) (hx : x.isFlat = false)
    (h : o :: enter length :: (inner ++ [c, exit]) = before ++ x :: after) :
    (x = enter length ∧ before = [o] ∧ after = inner ++ [c, exit]) ∨
      (∃ outer rest, inner = outer ++ x :: rest ∧ before = o :: enter length :: outer ∧
        after = rest ++ [c, exit]) ∨
      (x = exit ∧ before = o :: enter length :: (inner ++ [c])) := by
  rcases before with _ | ⟨y, _ | ⟨z, before⟩⟩
  · cases h
    rw [ho] at hx
    cases hx
  · cases h
    exact Or.inl ⟨rfl, rfl, rfl⟩
  · simp only [List.cons_append, List.cons.injEq] at h
    obtain ⟨rfl, rfl, h⟩ := h
    rcases exists_of_append_eq h with ⟨rest, hinner, rfl⟩ | ⟨outer, rfl, hclose⟩
    · exact Or.inr (Or.inl ⟨before, rest, hinner, rfl, rfl⟩)
    · rcases outer with _ | ⟨y, _ | ⟨z, outer⟩⟩
      · cases hclose
        rw [hc] at hx
        cases hx
      · cases hclose
        exact Or.inr (Or.inr ⟨rfl, rfl⟩)
      · simp at hclose

/-! ### Accounts -/

namespace Source

/-- **The account of a group** that opens at `p` and whose closer is the token from `c` to `d`. Its
length is what the texts behind the opener take, up to the closer and with it, but without the
spaces that the token of the closer has taken in. -/
structure Entered (src : Source) (e : Extent) (atoms : List Atom) (p c d : Nat) (length : Int)
    (inner : List Event) : Prop where
  visible : ∀ a ∈ atoms, a.span.contains p = false
  closes : src.findCloser p e.stop = .ok (some c)
  token : ∃ t ∈ src.tokens e, t.kind = .closer ∧ t.extent = ⟨c, d⟩
  spaces : ∀ x : Nat, c < x → x < d → src.kind? x = some .space
  paired : Event.Paired inner
  tiled : Event.Tile c (p + 1) inner
  length_eq : length = Event.widths (inner ++ [.text ⟨c, d⟩ (d - c)]) - (d - (c + 1))

/-- **The accounts of events** from the position `i` to `j` of a stretch. -/
structure Accounts (src : Source) (e : Extent) (atoms : List Atom) (i j : Nat)
    (es : List Event) : Prop where
  tiled : Event.Tile j i es
  paired : Event.Paired es
  /-- A text is that of an atom, or of a token and as wide as it is long. -/
  texts : ∀ span width, .text span width ∈ es → ⟨span, width⟩ ∈ atoms ∨
    width = span.length ∧ ∃ t ∈ src.tokens e, t.extent.span = span
  /-- A group is entered right behind the text of an opener. -/
  entered : ∀ before length after, es = before ++ .enter length :: after →
    ∃ (p c d : Nat) (outer inner rest : List Event), src.Entered e atoms p c d length inner ∧
      before = outer ++ [.text ⟨p, p + 1⟩ 1] ∧
      after = inner ++ .text ⟨c, d⟩ (d - c) :: .exit :: rest
  /-- A group is left right behind the text of its closer. -/
  left : ∀ before after, es = before ++ .exit :: after →
    ∃ (p c d : Nat) (length : Int) (outer inner : List Event),
      src.Entered e atoms p c d length inner ∧
      before = outer ++ .text ⟨p, p + 1⟩ 1 :: .enter length :: (inner ++ [.text ⟨c, d⟩ (d - c)])
  /-- Every opener that is not hidden enters a group. -/
  opened : ∀ p ∈ src.openers ⟨i, j⟩, (∀ a ∈ atoms, a.span.contains p = false) →
    ∃ before length after, es = before ++ .text ⟨p, p + 1⟩ 1 :: .enter length :: after

namespace Accounts

variable {src : Source} {e : Extent} {atoms : List Atom} {i j k : Nat} {es es' : List Event}

/-- Texts outside of groups. -/
theorem flat (htiled : Event.Tile j i es) (hflat : ∀ x ∈ es, x.isFlat = true)
    (htexts : ∀ span width, .text span width ∈ es → ⟨span, width⟩ ∈ atoms ∨
      width = span.length ∧ ∃ t ∈ src.tokens e, t.extent.span = span)
    (hopened : ∀ p ∈ src.openers ⟨i, j⟩, ∃ a ∈ atoms, a.span.contains p = true) :
    src.Accounts e atoms i j es := by
  refine ⟨htiled, .of_flat hflat, htexts, ?_, ?_, fun p hp hvisible => ?_⟩
  · rintro before length after rfl
    have := hflat (.enter length) (by simp)
    cases this
  · rintro before after rfl
    have := hflat .exit (by simp)
    cases this
  · obtain ⟨a, ha, hcontains⟩ := hopened p hp
    rw [hvisible a ha] at hcontains
    cases hcontains

/-- **Stretches next to each other** have their accounts together. -/
theorem append (h : src.Accounts e atoms i j es) (h' : src.Accounts e atoms j k es') (hij : i ≤ j)
    (hjk : j ≤ k) : src.Accounts e atoms i k (es ++ es') where
  tiled := h'.tiled.append h.tiled
  paired := h.paired.append h'.paired
  texts span width hmem := by
    rcases List.mem_append.mp hmem with hmem | hmem
    · exact h.texts span width hmem
    · exact h'.texts span width hmem
  entered before length after heq := by
    rcases exists_of_append_eq heq with ⟨mid, hes, rfl⟩ | ⟨mid, rfl, hes⟩
    · obtain ⟨p, c, d, outer, inner, rest, hgroup, hbefore, rfl⟩ := h.entered _ _ _ hes
      exact ⟨p, c, d, outer, inner, rest ++ es', hgroup, hbefore, by simp⟩
    · obtain ⟨p, c, d, outer, inner, rest, hgroup, rfl, hafter⟩ := h'.entered _ _ _ hes
      exact ⟨p, c, d, es ++ outer, inner, rest, hgroup, by simp, hafter⟩
  left before after heq := by
    rcases exists_of_append_eq heq with ⟨mid, hes, -⟩ | ⟨mid, rfl, hes⟩
    · exact h.left _ _ hes
    · obtain ⟨p, c, d, length, outer, inner, hgroup, rfl⟩ := h'.left _ _ hes
      exact ⟨p, c, d, length, es ++ outer, inner, hgroup, by simp⟩
  opened p hp hvisible := by
    rw [← openers_append hij hjk] at hp
    rcases List.mem_append.mp hp with hp | hp
    · obtain ⟨before, length, after, rfl⟩ := h.opened p hp hvisible
      exact ⟨before, length, after ++ es', by simp⟩
    · obtain ⟨before, length, after, rfl⟩ := h'.opened p hp hvisible
      exact ⟨es ++ before, length, after, by simp⟩

/-- **A group** has its own account besides those of its interior. -/
theorem group {p c d : Nat} {length : Int} {inner : List Event}
    (h : src.Accounts e atoms (p + 1) c inner) (hgroup : src.Entered e atoms p c d length inner)
    (hopener : ∃ t ∈ src.tokens e, t.extent = ⟨p, p + 1⟩) (hcd : c < d)
    (hopeners : src.openers ⟨p, d⟩ = p :: src.openers ⟨p + 1, c⟩) :
    src.Accounts e atoms p d
      (.text ⟨p, p + 1⟩ 1 :: .enter length :: (inner ++ [.text ⟨c, d⟩ (d - c), .exit])) where
  tiled := by
    have hcloser : Event.Tile d c [.text ⟨c, d⟩ (d - c), .exit] := ⟨rfl, Int.ofNat_lt.mpr hcd, rfl⟩
    exact ⟨rfl, Int.lt_succ p, hcloser.append h.tiled⟩
  paired := by
    have hbody : Event.Paired (inner ++ [.text ⟨c, d⟩ (d - c)]) := h.paired.append (.flat rfl .nil)
    have hpaired : Event.Paired (.enter length :: (inner ++ [.text ⟨c, d⟩ (d - c)] ++ [.exit])) :=
      .group hbody .nil
    rw [List.append_assoc] at hpaired
    exact .flat rfl hpaired
  texts span width hmem := by
    simp only [List.mem_cons, List.mem_append, Event.text.injEq, reduceCtorEq, List.not_mem_nil,
      or_false, false_or] at hmem
    rcases hmem with ⟨rfl, rfl⟩ | hmem | ⟨rfl, rfl⟩
    · obtain ⟨t, ht, hextent⟩ := hopener
      exact Or.inr ⟨by simp [Span.length], t, ht, by rw [hextent]; rfl⟩
    · exact h.texts span width hmem
    · obtain ⟨t, ht, -, hextent⟩ := hgroup.token
      exact Or.inr ⟨rfl, t, ht, by rw [hextent]; rfl⟩
  entered before length' after heq := by
    rcases Event.exists_of_group_eq rfl rfl rfl heq with
      ⟨hlength, rfl, rfl⟩ | ⟨outer', rest', hinner, rfl, rfl⟩ | ⟨hexit, -⟩
    · cases hlength
      exact ⟨p, c, d, [], inner, [], hgroup, rfl, rfl⟩
    · obtain ⟨p', c', d', outer, inner', rest, hgroup', rfl, rfl⟩ := h.entered _ _ _ hinner
      exact ⟨p', c', d', .text ⟨p, p + 1⟩ 1 :: .enter length :: outer, inner',
        rest ++ [.text ⟨c, d⟩ (d - c), .exit], hgroup', rfl, by simp⟩
    · cases hexit
  left before after heq := by
    rcases Event.exists_of_group_eq rfl rfl rfl heq with
      ⟨hlength, -⟩ | ⟨outer', rest', hinner, rfl, rfl⟩ | ⟨-, rfl⟩
    · cases hlength
    · obtain ⟨p', c', d', length', outer, inner', hgroup', rfl⟩ := h.left _ _ hinner
      exact ⟨p', c', d', length', .text ⟨p, p + 1⟩ 1 :: .enter length :: outer, inner', hgroup',
        rfl⟩
    · exact ⟨p, c, d, length, [], inner, hgroup, rfl⟩
  opened q hq hvisible := by
    rw [hopeners] at hq
    rcases List.mem_cons.mp hq with rfl | hq
    · exact ⟨[], length, _, rfl⟩
    · obtain ⟨before, length', after, rfl⟩ := h.opened q hq hvisible
      exact ⟨.text ⟨p, p + 1⟩ 1 :: .enter length :: before, length',
        after ++ [.text ⟨c, d⟩ (d - c), .exit], by simp⟩

end Accounts

end Source

/-! ### The accounts of a forest -/

theorem Token.textEvent_eq (t : Token) :
    t.textEvent = .text ⟨t.start, t.stop⟩ (t.stop - t.start) := by
  have hstop : ((t.stop : Int) - t.start) = t.glyphs.length := by
    rw [Token.stop]
    omega
  rw [hstop]
  rfl

theorem Token.textEvent_opener {t : Token} (h : t.stop = t.start + 1) :
    t.textEvent = .text ⟨t.start, t.start + 1⟩ 1 := by
  have hstop : (t.stop : Int) = t.start + 1 := by omega
  rw [t.textEvent_eq, hstop, show (t.start + 1 - t.start : Int) = 1 by omega]

/-- The events of the interior of a group, which starts at `x` and may be hidden. -/
def Forest.interior (atoms : List Atom) (x : Nat) (f : Forest Token) : List Event :=
  match Atom.startingAt atoms x with
  | some a => [.text a.span a.width]
  | none => f.events atoms

theorem Forest.events_group (atoms : List Atom) (o : Token) (inner : Forest Token) (c : Token)
    (rest : Forest Token) : (group o inner c rest).events atoms =
      (o.textEvent :: .enter (Atom.columns atoms ⟨o.stop, c.start + 1⟩) ::
        (inner.interior atoms o.stop ++ [c.textEvent, .exit])) ++ rest.events atoms := by
  unfold Forest.interior
  rw [Forest.events]
  cases Atom.startingAt atoms o.stop <;> simp

/-- An interior is hidden, and one text stands for it, or it is shown. -/
theorem Forest.interior_cases {hidden : List Placeholder} {i j : Nat} {f : Forest Token}
    {P : List Event → Prop} (h : match placeholderAt hidden i with
      | some p => p.span = ⟨i, j⟩
      | none => f.Folds hidden)
    (hhidden : ∀ p ∈ hidden, p.span = ⟨i, j⟩ → P [.text ⟨i, j⟩ p.text.length])
    (hshown : f.Folds hidden → P (f.events (hidden.map Placeholder.atom))) :
    P (f.interior (hidden.map Placeholder.atom) i) := by
  unfold Forest.interior
  rw [startingAt_atoms]
  cases hat : placeholderAt hidden i with
  | none =>
    rw [hat] at h
    exact hshown h
  | some p =>
    rw [hat] at h
    have hp := hhidden p (placeholderAt_eq_some hat).1 h
    rwa [← show p.span = ⟨i, j⟩ from h] at hp

section Walk

variable {src : Source} {e : Extent} {hidden : List Placeholder} {is : List Instruction}
  {i j : Nat} {f : Forest Token} (hlay : Layable src.length is hidden)
include hlay

theorem widths_token {t : Token} (ht : t.At src i)
    (hap : Atom.Apart (hidden.map Placeholder.atom) t.start t.stop) :
    t.textEvent.width = shownOffset hidden t.stop - shownOffset hidden i := by
  have hshown := shownOffset_apart hlay.span_lt hap ht.formed.lt_stop.le
  rw [t.textEvent_eq, Event.width_text, hshown, ht.start_eq]
  omega

theorem widths_hidden {p : Placeholder} (hp : p ∈ hidden) (hspan : p.span = ⟨i, j⟩) :
    Event.widths [.text ⟨i, j⟩ p.text.length] = shownOffset hidden j - shownOffset hidden i := by
  have hstop := hlay.shownOffset_stop hp
  rw [hspan] at hstop
  simp only at hstop
  rw [Event.widths_cons, Event.widths_nil, Event.width_text]
  omega

/-- **The events of a forest take the columns that it is shown in.** -/
theorem Laid.widths_events (h : Laid src i f j) : f.Folds hidden →
    Event.widths (f.events (hidden.map Placeholder.atom)) =
      shownOffset hidden j - shownOffset hidden i := by
  induction h with
  | nil => intro _; simp [Forest.events]
  | @item i j t rest ht _ _ ih =>
    rintro ⟨hap, hrest⟩
    have hgap : Event.widths (if t.kind = .separator then [.gap] else []) = 0 := by
      split_ifs <;> rfl
    rw [Forest.events, Event.widths_cons, Event.widths_append, hgap, widths_token hlay ht hap,
      ih hrest]
    omega
  | @group i j b o c inner rest ho _ hi hc _ _ ihi ihr =>
    rintro ⟨hapo, hapc, hinner, hrest⟩
    have hmid : Event.widths (inner.interior (hidden.map Placeholder.atom) o.stop) =
        shownOffset hidden c.start - shownOffset hidden o.stop :=
      Forest.interior_cases (P := fun es => Event.widths es =
        shownOffset hidden c.start - shownOffset hidden o.stop) hinner
        (fun _ => widths_hidden hlay) ihi
    rw [Forest.events_group]
    simp only [Event.widths_append, Event.widths_cons, Event.widths_nil, hmid, ihr hrest,
      widths_token hlay ho hapo, widths_token hlay hc hapc, Event.width_enter, Event.width_exit]
    omega

omit hlay in
/-- A token outside of groups. -/
theorem accounts_token {atoms : List Atom} {t : Token} (ht : t.At src i)
    (hb : t.cls.isBracket = false) (htoken : t ∈ src.tokens e) :
    src.Accounts e atoms t.start t.stop
      (t.textEvent :: if t.kind = .separator then [.gap] else []) := by
  have hlt := ht.formed.lt_stop
  have hopeners := ht.openers_eq_nil (ht.formed.kind_item hb).1
  rw [t.textEvent_eq]
  refine .flat ?_ ?_ (fun span width hw => Or.inr ?_) (by simp [hopeners])
  · refine ⟨rfl, Int.ofNat_lt.mpr hlt, ?_⟩
    split_ifs <;> rfl
  · split_ifs <;> simp [Event.isFlat]
  · obtain ⟨rfl, rfl⟩ : span = ⟨t.start, t.stop⟩ ∧ width = t.stop - t.start := by
      split_ifs at hw <;> simpa using hw
    exact ⟨rfl, t, htoken, rfl⟩

/-- A hidden interior. -/
theorem accounts_hidden {p : Placeholder} (hp : p ∈ hidden) (hspan : p.span = ⟨i, j⟩) :
    src.Accounts e (hidden.map Placeholder.atom) i j [.text ⟨i, j⟩ p.text.length] := by
  have hlt := hlay.span_lt p hp
  have hatom : ⟨⟨i, j⟩, p.text.length⟩ ∈ hidden.map Placeholder.atom :=
    List.mem_map.mpr ⟨p, hp, by rw [Placeholder.atom, hspan]⟩
  rw [hspan] at hlt
  refine .flat ⟨rfl, hlt, rfl⟩ (by simp [Event.isFlat]) (fun span width hw => Or.inl ?_)
    fun x hx => ⟨_, hatom, ?_⟩
  · obtain ⟨rfl, rfl⟩ : span = ⟨i, j⟩ ∧ width = p.text.length := by simpa using hw
    exact hatom
  · have hbounds := List.mem_range'_1.mp (List.mem_filter.mp hx).1
    simp only at hbounds
    simp only [Span.contains, Bool.and_eq_true, decide_eq_true_eq]
    omega

/-- **A group in its place has its account.** -/
theorem Laid.entered {b : Bracket} {o c : Token} (hlen : e.stop ≤ src.length) (ho : o.At src i)
    (hob : o.cls = .opener b) (hi : Laid src o.stop f c.start) (hc : c.At src c.start)
    (hcb : c.cls = .closer b) (htoken : c ∈ src.tokens e) (he : e.start ≤ e.stop)
    (hapo : Atom.Apart (hidden.map Placeholder.atom) o.start o.stop)
    (hapc : Atom.Apart (hidden.map Placeholder.atom) c.start c.stop)
    (hmid : src.Accounts e (hidden.map Placeholder.atom) o.stop c.start
      (f.interior (hidden.map Placeholder.atom) o.stop))
    (hwidths : Event.widths (f.interior (hidden.map Placeholder.atom) o.stop) =
      shownOffset hidden c.start - shownOffset hidden o.stop) :
    src.Entered e (hidden.map Placeholder.atom) o.start c.start c.stop
      (Atom.columns (hidden.map Placeholder.atom) ⟨o.stop, c.start + 1⟩)
      (f.interior (hidden.map Placeholder.atom) o.stop) := by
  have hostop := ho.formed.stop_opener hob
  have hcstop := hc.formed.lt_stop
  have hile := hi.le
  have hkc := hc.formed.kind_closer hcb
  have hat := (Source.partitioned_tokens he hlen).tokenAt c htoken
  refine ⟨fun a ha => ?_, ?_, ⟨c, htoken, hkc, rfl⟩, fun x hx hlt => ?_, hmid.paired, ?_, ?_⟩
  · have := hapo a ha
    simp only [Span.contains, Bool.and_eq_false_iff, decide_eq_false_iff_not]
    omega
  · have hstop := hat.stop_le
    exact (groupAt ho hob hi hc hcb).findCloser_eq (by omega) hlen
  · obtain ⟨w, hrun, hstop⟩ := hat.closer hkc
    split_ifs at hstop
    · exact hrun.kind_eq x hx (by omega)
    · omega
  · have htiled := hmid.tiled
    rw [hostop] at htiled ⊢
    exact htiled
  · -- the length is what is shown up to the closer, and of the closer one column
    have hfree : Free hidden o.stop := free_of_apart hapo (by omega) (Nat.le_refl _)
    have hone : Atom.Apart (hidden.map Placeholder.atom) c.start (c.start + 1) := fun a ha => by
      have := hapc a ha
      omega
    have hcolumn := shownOffset_apart hlay.span_lt hone (Nat.le_succ c.start)
    rw [hlay.columns_eq hfree (show o.stop ≤ c.start + 1 by omega), Event.widths_append, hwidths,
      Event.widths_cons, Event.widths_nil, Event.width_text]
    omega

/-- **A forest has its accounts.** -/
theorem Laid.accounts (hlen : e.stop ≤ src.length) (he : e.start ≤ e.stop) (h : Laid src i f j) :
    (∀ t ∈ f.word, t ∈ src.tokens e) → f.Folds hidden →
      src.Accounts e (hidden.map Placeholder.atom) i j
        (f.events (hidden.map Placeholder.atom)) := by
  induction h with
  | @nil i =>
    intro _ _
    rw [Forest.events]
    have htiled : Event.Tile i i [] := rfl
    exact .flat htiled (by simp) (by simp) (by simp [Source.openers])
  | @item i j t rest ht hb hr ih =>
    rintro hmem ⟨hap, hrest⟩
    obtain ⟨rfl, hlt, hle⟩ := Laid.item_bounds ht hr
    have htoken := hmem t List.mem_cons_self
    exact (accounts_token ht hb htoken).append
      (ih (fun x hx => hmem x (List.mem_cons_of_mem _ hx)) hrest) hlt.le hle
  | @group i j b o c inner rest ho hob hi hc hcb hr ihi ihr =>
    rintro hmem ⟨hapo, hapc, hinner, hrest⟩
    obtain ⟨rfl, hostop, hile, hlt, hle⟩ := Laid.group_bounds ho hob hi hc hr
    simp only [Forest.word, List.mem_cons, List.mem_append] at hmem
    have hmid : src.Accounts e (hidden.map Placeholder.atom) o.stop c.start
        (inner.interior (hidden.map Placeholder.atom) o.stop) :=
      Forest.interior_cases hinner (fun _ => accounts_hidden hlay)
        (ihi fun x hx => hmem x (Or.inr (Or.inl hx)))
    have hwidths : Event.widths (inner.interior (hidden.map Placeholder.atom) o.stop) =
        shownOffset hidden c.start - shownOffset hidden o.stop :=
      Forest.interior_cases (P := fun es => Event.widths es =
        shownOffset hidden c.start - shownOffset hidden o.stop) hinner
        (fun _ => widths_hidden hlay) (hi.widths_events hlay)
    have hentered := Laid.entered hlay hlen ho hob hi hc hcb (hmem c (by simp)) he hapo hapc hmid
      hwidths
    have hopeners := Laid.openers_group ho hob hi hc hcb
    rw [Forest.events_group, Token.textEvent_opener hostop, c.textEvent_eq]
    rw [hostop] at hmid hopeners
    refine Source.Accounts.append (.group ?_ hentered ⟨o, hmem o (by simp), ?_⟩ hlt ?_)
      (ihr (fun x hx => hmem x (by simp [hx])) hrest) (by omega) hle
    · rwa [hostop]
    · rw [Token.extent, hostop]
    · exact hopeners

end Walk

/-- **The events account for the lengths of the groups.** Fold a nested stretch at a level of one or
more, or not at all, whatever the placeholder. The walk over the stretch comes to its end, the texts
tile it, and the groups are properly nested. Each group is entered right behind the text of an
opener that is not hidden and left right behind the text of its closer, and its length is what the
texts in between and the closer take, without the spaces that belong to the closer. -/
theorem events_account_for_lengths (src : Source) {e : Extent}
    (he : src.Balanced e.start e.stop) (hlen : e.stop ≤ src.length) {level : Option Int}
    (hlevel : ∀ n ∈ level, 1 ≤ n) (placeholder : Text) :
    ∃ regions folding events, src.regions e = .ok regions ∧
      fold regions level placeholder = .ok folding ∧
      src.trace e folding.atoms = ⟨events, none⟩ ∧
      src.Accounts e folding.atoms e.start e.stop events := by
  obtain ⟨f, folding, hw, hl, hregions, hfold, hshown, hfolds, -⟩ :=
    exists_folding he hlen hlevel placeholder
  have hides : Hides src e.start e.stop level folding.atoms := hides_of_fold hl hfold
  have hsize : ∀ a ∈ folding.atoms, 0 ≤ a.span.length :=
    fun a ha => Int.le_of_lt (hides.span_length_pos ha)
  have hplaced : Placed folding.atoms e.start e.stop 0 [] := Placed.nil
  have hlay : Layable src.length [] folding.placeholders := layable_of_fold hl hlen hfold hplaced
  refine ⟨_, folding, _, hregions, hfold,
    trace_eq_of_laid hsize hlen hw hl (hides.agrees_of_shown hl hshown), ?_⟩
  exact hl.accounts hlay hlen he.le (by simp [hw]) hfolds

/-- Two groups are hidden inside a third. The closer of the second has taken in the spaces behind
it, which count for the group around it only. -/
theorem events_account_for_lengths_closers :
    let src := Source.ofText "map<set<int>, list<(a), b>  >".toList
    src.Balanced 0 29 ∧ ∃ regions folding events, src.regions ⟨0, 29⟩ = .ok regions ∧
      fold regions (some 2) "..".toList = .ok folding ∧
      src.trace ⟨0, 29⟩ folding.atoms = ⟨events, none⟩ ∧
      src.Accounts ⟨0, 29⟩ folding.atoms 0 29 events ∧
      events.filter (!·.isFlat) =
        [.enter 20, .enter 3, .exit, .enter 3, .exit, .exit] := by
  intro src
  have he : src.Balanced 0 29 := ⟨by decide, nested_iff_openAfter.mpr (by decide +kernel)⟩
  obtain ⟨regions, folding, events, hregions, hfold, htrace, haccounts⟩ :=
    events_account_for_lengths src (e := ⟨0, 29⟩) he (by decide +kernel)
      (show ∀ n ∈ some (2 : Int), 1 ≤ n by decide) "..".toList
  have hevents := eq_of_fold_map (fun f => (src.trace ⟨0, 29⟩ f.atoms).events.filter (!·.isFlat))
    hregions hfold (a := [.enter 20, .enter 3, .exit, .enter 3, .exit, .exit]) (by decide +kernel)
  rw [htrace] at hevents
  exact ⟨he, regions, folding, events, hregions, hfold, htrace, haccounts, hevents⟩

end DiagLayout
