import DiagLayout.Proofs.Sessions
import DiagLayout.Proofs.Spellings
import DiagLayout.Proofs.SubstitutionLines

/-!
# The places of the instructions

The instructions of an expression come from several layouts: a line of its own for the expression,
the layout of the signature, a line for each substitution, and the layout of its value. All of them
are in order, inside the match, and at places where a line may be broken (`Source.LineSite`): behind
an opener, behind separators and spaces, or behind the opening of the substitutions. So no symbol is
cut, and nothing is broken that a fold hides.

`Expression.WellSited` says this of one expression, `Expression.wellSited_of_make` of all that are
made. The main result is `instructions_well_sited`.
-/

namespace DiagLayout

namespace Source

/-- **Where a line starts in the layout of a stretch**: at a break site, or behind the opening of
the substitutions. -/
def LineSite (src : Source) (e : Extent) (x : Nat) : Prop :=
  src.BreakSite x ∨
    ∃ g, src.substitutionGroup? e = .ok (some g) ∧ x = g.start + Dialect.withOpening.length

theorem LineSite.pos {src : Source} {e : Extent} {x : Nat} (h : src.LineSite e x) : 0 < x := by
  rcases h with (hopen | ⟨k, hk, -⟩) | ⟨g, -, rfl⟩
  · rcases x with _ | x
    · cases hopen
    · exact Nat.succ_pos x
  · omega
  · exact Nat.succ_pos _

/-- A substitution starts at a line site. -/
theorem lineSite_of_mem_substitutions {src : Source} (hsrc : src.Classed) {e g sub : Extent}
    (hfound : src.substitutionGroup? e = .ok (some g)) (hg : src.IsSubstitutionGroup e g)
    (hlen : e.stop ≤ src.length) (hsub : sub ∈ src.substitutions (substitutionInterior g)) :
    src.LineSite e sub.start := by
  obtain ⟨-, -, hstop⟩ := hg.bounds hsrc
  have hcut := cutAtSemicolons (hg.balanced_interior hsrc)
    (Nat.le_trans (Nat.le_of_lt hstop) hlen)
  rcases hcut.alternate.start_cases sub hsub with hstart | ⟨t, ht, hstart, hle⟩
  · exact Or.inr ⟨g, hfound, hstart⟩
  · obtain ⟨hhead, hends⟩ := List.mem_filter.mp ht
    have hk : t.kind = .separator := by
      simp only [Token.endsSubstitution, Bool.and_eq_true, beq_iff_eq] at hends
      exact hends.1
    obtain ⟨f, hw, hl⟩ := exists_laid (hg.balanced_interior hsrc)
      (Nat.le_trans (Nat.le_of_lt hstop) hlen)
    rw [← hw, hl.outermost_word] at hhead
    have htoken : t ∈ src.tokens (substitutionInterior g) := hw ▸ f.heads_subset hhead
    -- behind the interior the group closes
    have hcloser : src.kind? (substitutionInterior g).stop = some .closer := by
      obtain ⟨b, o, c, -, -, hc, hcb, -⟩ := hg.groupAt
      rw [kind?_natCast, show src[(substitutionInterior g).stop]? = some c from hc, Option.map_some,
        Glyph.kind, hcb]
      rfl
    rw [hstart]
    exact Or.inl (Or.inr (behindSeparator_of_mem htoken hk hle (Or.inr hcloser)))

/-- **No symbol is cut where a line starts.** -/
theorem LineSite.not_runsOver {t : Text} {e : Extent} {x : Nat}
    (hgroup : ∀ g, (ofText t).substitutionGroup? e = .ok (some g) →
      (ofText t).IsSubstitutionGroup e g) (h : (ofText t).LineSite e x) :
    ¬ (ofText t).RunsOver .symbol x := by
  rcases h with hsite | ⟨g, hg, rfl⟩
  · exact hsite.not_runsOver
  · obtain ⟨⟨b, o, c, ho, hob, -⟩, -, -, hopen⟩ := hgroup g hg
    have hopener : (ofText t).kind? g.start = some .opener := by
      rw [kind?_natCast, ho, Option.map_some, Glyph.kind, hob]
      rfl
    rw [Glyph.text, List.map_drop, ← Glyph.text, ← text, text_ofText] at hopen
    have hspace := kind?_opening hopener hopen
    rintro ⟨hbefore, -⟩
    rw [show ((g.start + Dialect.withOpening.length : Nat) : Int) - 1 = (g.start + 5 : Nat) by
      rw [show Dialect.withOpening.length = 6 from rfl]; omega, hspace] at hbefore
    cases hbefore

end Source

/-! ### The layout of a match -/

theorem exists_of_mem_forall₂ {α β : Type} {R : α → β → Prop} {l : List α} {l' : List β}
    (h : List.Forall₂ R l l') : ∀ {b : β}, b ∈ l' → ∃ a ∈ l, R a b := by
  induction h with
  | nil =>
    intro b hb
    cases hb
  | @cons a b l l' hR _ ih =>
    intro b' hb'
    rcases List.mem_cons.mp hb' with rfl | hb'
    · exact ⟨a, List.mem_cons_self, hR⟩
    · obtain ⟨a', ha', hR'⟩ := ih hb'
      exact ⟨a', List.mem_cons_of_mem _ ha', hR'⟩

/-- Where lines start in a function whose substitutions are shown: in the signature, at each
substitution and inside it. -/
theorem exists_fillFunction_sites {src : Source} (hsrc : src.Classed) {level : Option Int}
    {atoms : List Atom} {e g : Extent} (h : Hides src e.start e.stop level atoms)
    (hlen : e.stop ≤ src.length) (hl : ∀ n ∈ level, 1 ≤ n)
    (hfound : src.substitutionGroup? e = .ok (some g)) (hg : src.IsSubstitutionGroup e g)
    (hopen : ¬ isFolded g atoms = true) (indent : Int) (config : Config) :
    ∃ is, fillFunction src e indent config atoms = .ok is ∧
      ∀ i ∈ is, ∃ x : Nat, i.offset = x ∧ x < e.stop ∧ src.LineSite e x := by
  obtain ⟨signature, lines, -, hfill, hlines, hsites⟩ :=
    exists_fillFunction_onOwnLine hsrc h hlen hl hfound hg hopen indent config
  refine ⟨_, hfill, fun i hi => ?_⟩
  rcases List.mem_append.mp hi with hi | hi
  · obtain ⟨x, hx, hlt, hsite⟩ := hsites i hi
    have hgroup := hg.groupAt.lt
    have hlast := hg.stop_le
    exact ⟨x, hx, by omega, Or.inl hsite⟩
  · obtain ⟨line, hline, hi⟩ := List.mem_flatten.mp hi
    obtain ⟨sub, hsub, inner, rfl, hinner⟩ := exists_of_mem_forall₂ hlines hline
    obtain ⟨hbalanced, -, hlast, -⟩ := hg.substitution_spec hsrc hlen hsub
    have hsubstart := hbalanced.le
    rcases List.mem_cons.mp hi with rfl | hi
    · exact ⟨sub.start, rfl, by omega,
        Source.lineSite_of_mem_substitutions hsrc hfound hg hlen hsub⟩
    · obtain ⟨-, x, hx, -, hlt, hsite⟩ := hinner i hi
      exact ⟨x, hx, by omega, Or.inl hsite⟩

/-- **What is recognised is laid out at line sites.** -/
theorem Match.exists_fill_sites {text : Text} {m : Match}
    (hm : Match.best? (Source.ofText text) = some m) {level : Option Int} {atoms : List Atom}
    (h : Hides (Source.ofText text) 0 m.length level atoms) (hl : ∀ n ∈ level, 1 ≤ n)
    (indent : Int) (config : Config) :
    ∃ is, fill m.reading (Source.ofText text) m.extent indent config atoms = .ok is ∧
      ∀ i ∈ is, ∃ x : Nat, i.offset = x ∧ x < m.length ∧
        (Source.ofText text).LineSite m.extent x := by
  obtain ⟨-, hle, hbal⟩ := Match.balanced_of_best? hm
  -- the whole match laid out as one stretch
  have hwhole : ∃ is, fillType (Source.ofText text) m.extent indent config atoms = .ok is ∧
      ∀ i ∈ is, ∃ x : Nat, i.offset = x ∧ x < m.length ∧
        (Source.ofText text).LineSite m.extent x := by
    obtain ⟨is, his, hsites⟩ := exists_fillType_sites h hbal (Nat.le_refl _) hle hl indent config
    refine ⟨is, his, fun i hi => ?_⟩
    obtain ⟨x, hx, hlt, hsite⟩ := hsites i hi
    exact ⟨x, hx, hlt, Or.inl hsite⟩
  cases hr : m.reading with
  | type => exact hwhole
  | function =>
    obtain ⟨found, hfound, hgroup⟩ := Source.exists_substitutionGroup? (e := m.extent) hbal hle
    by_cases hopen : ∃ g, found = some g ∧ ¬ isFolded g atoms = true
    · obtain ⟨g, rfl, hopen⟩ := hopen
      exact exists_fillFunction_sites (Source.classed_ofText text) (e := m.extent) h hle hl hfound
        (hgroup g rfl) hopen indent config
    · have hfolded : ∀ g, found = some g → isFolded g atoms = true := by
        intro g hg
        by_contra hcon
        exact hopen ⟨g, hg, hcon⟩
      rw [fill, fillFunction_eq_fillType hfound hfolded]
      exact hwhole

/-! ### The instructions of an expression -/

namespace Expression

/-- **The instructions of an expression are well placed** in the text between its quotation marks.
-/
structure WellSited (text : Text) (e : Expression) : Prop where
  increasing : e.instructions.Pairwise fun i i' => i.offset < i'.offset
  inside : ∀ i ∈ e.instructions, e.matched.start ≤ i.offset ∧ i.offset < e.matched.stop
  ownLine_iff : e.ownLine = true ↔ ∃ i ∈ e.instructions, i.offset = e.matched.start
  first : e.ownLine = true → e.instructions.head? = some ⟨e.matched.start, 0⟩
  site : ∀ i ∈ e.instructions, i.offset ≠ e.matched.start → ∃ x : Nat,
    i.offset = e.matched.start + x ∧ (Source.ofText text).LineSite e.found.extent x
  symbol : ∀ i ∈ e.instructions, ∀ x : Nat, i.offset = e.matched.start + x →
    ¬ (Source.ofText text).RunsOver .symbol x
  clear : ∀ i ∈ e.instructions, ∀ p ∈ e.fold.placeholders,
    i.offset ≤ p.span.start ∨ p.span.stop < i.offset

@[simp] theorem matched_start (e : Expression) : e.matched.start = e.quote.start :=
  Int.zero_add _

@[simp] theorem matched_stop (e : Expression) :
    e.matched.stop = e.quote.start + e.found.length :=
  Int.add_comm _ _

/-- The instructions of an expression: one at its start if it has a line of its own, and those of
the layout at line sites. -/
theorem mem_instructions_of_make {text : Text} {m : Match}
    (hm : Match.best? (Source.ofText text) = some m) {quote : Span} {column : Nat}
    {config : Config} {level : Option Int} {e : Expression}
    (h : make text m quote column config level = .ok e) :
    (e.ownLine = true → e.instructions.head? = some ⟨quote.start, 0⟩) ∧
      ∀ i ∈ e.instructions, (e.ownLine = true ∧ i.offset = quote.start) ∨
        ∃ x : Nat, i.offset = quote.start + x ∧ x < m.length ∧
          (Source.ofText text).LineSite m.extent x := by
  obtain ⟨regions, folding, is, hregions, hfold, his, -, hinstructions, -⟩ := exists_of_make h
  obtain ⟨hl, hhides⟩ := Match.hides_of_fold hm hregions hfold
  obtain ⟨is', his', hsites⟩ := Match.exists_fill_sites hm hhides hl _ config
  obtain rfl : is = is' := Except.ok.inj (his.symm.trans his')
  rw [hinstructions]
  constructor
  · intro hlead
    rw [if_pos hlead]
    rfl
  · intro i hi
    rcases List.mem_append.mp hi with hi | hi
    · left
      split_ifs at hi with hlead
      · rw [List.mem_singleton.mp hi]
        exact ⟨hlead, rfl⟩
      · cases hi
    · obtain ⟨j, hj, rfl⟩ := List.mem_map.mp hi
      obtain ⟨x, hx, hlt, hsite⟩ := hsites j hj
      exact Or.inr ⟨x, by simp only [Instruction.shift]; omega, hlt, hsite⟩

/-- **Every expression that is made is well sited.** -/
theorem wellSited_of_make {text : Text} {m : Match}
    (hm : Match.best? (Source.ofText text) = some m) {quote : Span} {column : Nat}
    {config : Config} {level : Option Int} {e : Expression}
    (h : make text m quote column config level = .ok e) : e.WellSited text := by
  obtain ⟨hquote, hfound, -, -, hl⟩ := of_make h
  obtain ⟨hfirst, hmem⟩ := mem_instructions_of_make hm h
  obtain ⟨e', he', hplaced, -⟩ := exists_make hm quote column config hl
  obtain rfl : e = e' := Except.ok.inj (h.symm.trans he')
  subst hquote
  subst hfound
  obtain ⟨hpos, hle, hbal⟩ := Match.balanced_of_best? hm
  have hgroup : ∀ g, (Source.ofText text).substitutionGroup? e.found.extent = .ok (some g) →
      (Source.ofText text).IsSubstitutionGroup e.found.extent g := by
    intro g hg
    obtain ⟨found, hfound, hgroup⟩ :=
      Source.exists_substitutionGroup? (e := e.found.extent) hbal hle
    exact hgroup g (Except.ok.inj (hfound.symm.trans hg))
  refine ⟨hplaced.increasing, fun i hi => ?_, ⟨fun hown => ?_, ?_⟩, ?_, fun i hi hne => ?_,
    fun i hi x hx => ?_, fun i hi p hp => ?_⟩
  · rw [matched_start, matched_stop]
    rcases hmem i hi with ⟨-, hi⟩ | ⟨x, hi, hlt, -⟩
    · omega
    · omega
  · exact ⟨_, List.mem_of_mem_head? (hfirst hown), matched_start e ▸ rfl⟩
  · rintro ⟨i, hi, hoffset⟩
    rcases hmem i hi with ⟨hown, -⟩ | ⟨x, hx, -, hsite⟩
    · exact hown
    · have := hsite.pos
      rw [matched_start] at hoffset
      omega
  · rwa [matched_start]
  · rw [matched_start] at hne ⊢
    rcases hmem i hi with ⟨-, hi⟩ | ⟨x, hi, -, hsite⟩
    · exact absurd hi hne
    · exact ⟨x, hi, hsite⟩
  · rw [matched_start] at hx
    rcases hmem i hi with ⟨-, hi⟩ | ⟨y, hi, -, hsite⟩
    · obtain rfl : x = 0 := by omega
      rintro ⟨hbefore, -⟩
      cases hbefore
    · obtain rfl : x = y := by omega
      exact hsite.not_runsOver hgroup
  · exact hplaced.clear i hi ⟨p.span, p.text.length⟩ (List.mem_map.mpr ⟨p, hp, rfl⟩)

end Expression

/-! ### All expressions -/

/-- The quote of a site in a line has its body there. -/
theorem slice_of_mem_lineSites {config : Config} {base : Int} {line : Text} {site : Site}
    (h : site ∈ lineSites config base line) :
    Match.best? (Source.ofText site.body) = some site.found ∧
      (site.quote.shift (-base)).slice line = site.body := by
  unfold lineSites at h
  split_ifs at h
  · obtain ⟨q, hq, hs⟩ := List.mem_filterMap.mp h
    obtain ⟨m, hm, rfl⟩ := Option.map_eq_some_iff.mp hs
    refine ⟨hm, ?_⟩
    obtain ⟨u, v, rfl, hstart, -⟩ := (Quote.all_spec line).standsIn q hq
    have hshift : (Span.mk (base + q.start) (base + q.stop)).shift (-base) =
        ⟨u.length, u.length + q.body.length⟩ := by
      simp only [Span.shift, Quote.stop, Span.mk.injEq]
      omega
    rw [hshift]
    exact Text.slice_append u q.body v
  · cases h

/-- **The instructions of every expression are well placed**: of the expressions of a line, of those
that a session has, and of one that is folded at any level. -/
theorem instructions_well_sited :
    (∀ (line : Text) (base : Int) (config : Config), ∃ r, examineLine line base config = .ok r ∧
      ∀ e ∈ r.expressions, e.WellSited ((e.quote.shift (-base)).slice line)) ∧
    ∀ (config : Config) (requests : List Request),
      (∀ e ∈ (Session.reached config requests).expressions,
        e.WellSited (e.quote.slice (Session.reached config requests).text)) ∧
      ∀ (position : Int) (level : Option Int) (s : Session) (e : Expression),
        (Session.reached config requests).fold position level = .ok (s, e) →
          e.fold.level = level ∧
            e.WellSited (e.quote.slice (Session.reached config requests).text) := by
  refine ⟨fun line base config => ?_, fun config requests => ⟨fun e he => ?_, ?_⟩⟩
  · obtain ⟨r, hr, hemitted⟩ := exists_examineLine line base config
    refine ⟨r, hr, fun e he => ?_⟩
    obtain ⟨site, hsite, hmake⟩ := exists_of_mem_forall₂ hemitted he
    obtain ⟨hfound, hslice⟩ := slice_of_mem_lineSites hsite
    rw [(Expression.of_make hmake).1, hslice]
    exact Expression.wellSited_of_make hfound hmake
  · obtain ⟨site, hstands, hmade⟩ := (Session.valid_reached config requests).exists_site he
    rw [(Expression.of_make hmade).1, hstands.slice_eq]
    exact Expression.wellSited_of_make hstands.found_eq hmade
  · intro position level s e hfold
    have hvalid := Session.valid_reached config requests
    obtain ⟨i, site, -, hsite, hmake, -⟩ := hvalid.exists_of_fold hfold
    have hstands := hvalid.standsIn site (List.mem_of_getElem? hsite)
    obtain ⟨hquote, -, -, hlevel, -⟩ := Expression.of_make hmake
    rw [hquote, hstands.slice_eq]
    exact ⟨hlevel, Expression.wellSited_of_make hstands.found_eq hmake⟩

/-- A function folded at level two: a line of its own, and one for each of its substitutions. -/
theorem instructions_well_sited_substitutions :
    let output := "a.c:1:2: error: bad 'f(T) [with T = a<b>; U = c]' here\n".toList
    ∃ s e, (Session.reached { width := 12 } [.feed output]).fold 25 (some 2) = .ok (s, e) ∧
      e.instructions = [⟨21, 0⟩, ⟨32, 2⟩, ⟨42, 2⟩] ∧
      e.WellSited "f(T) [with T = a<b>; U = c]".toList := by
  intro output
  have hfolded : ((Session.reached { width := 12 } [.feed output]).fold 25 (some 2)).toOption.map
      (fun r => (r.2.quote, r.2.instructions)) =
        some (⟨21, 48⟩, [⟨21, 0⟩, ⟨32, 2⟩, ⟨42, 2⟩]) := by decide +kernel
  cases hfold : (Session.reached { width := 12 } [.feed output]).fold 25 (some 2) with
  | error f =>
    rw [hfold] at hfolded
    cases hfolded
  | ok r =>
    obtain ⟨s, e⟩ := r
    rw [hfold] at hfolded
    obtain ⟨hquote, hinstructions⟩ := Prod.mk.inj (Option.some.inj hfolded)
    obtain ⟨-, hsited⟩ :=
      (instructions_well_sited.2 { width := 12 } [.feed output]).2 25 (some 2) s e hfold
    rw [show e.quote = ⟨21, 48⟩ from hquote, show Span.slice ⟨21, 48⟩
      (Session.reached { width := 12 } [.feed output]).text =
        "f(T) [with T = a<b>; U = c]".toList by decide +kernel] at hsited
    exact ⟨s, e, rfl, hinstructions, hsited⟩

end DiagLayout
