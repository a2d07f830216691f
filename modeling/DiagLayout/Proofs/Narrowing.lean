import DiagLayout.Proofs.Replay

/-!
# A narrower width

The width decides which lines are laid out, and a line that is long enough for some width is long
enough for every narrower one. So a narrower session has all the expressions of a wider one, in
their order, and more between them. What is not layout is the same in both: the quote, the match,
the column and the regions, which we call the *outline* of an expression.

* `sitesFrom_sublist`: the sites of lines under a narrower width;
* `Session.Valid.outlines_eq`: the outlines of a session are those of its sites;
* `Session.Valid.refolded`: every expression is at the level that its quote has;
* `narrowing_only_adds`: a narrower session, and the way there and back.
-/

namespace DiagLayout

/-- **A configuration narrows another**: it is not wider, and the same in all other settings. -/
structure Config.Narrows (c' c : Config) : Prop where
  width_le : c'.width ≤ c.width
  indent_eq : c'.indent = c.indent
  placeholder_eq : c'.placeholder = c.placeholder
  shapes_eq : c'.shapes = c.shapes
  markers_eq : c'.markers = c.markers

/-! ### Lines and sites -/

section Sites

variable {c c' : Config} (h : c'.Narrows c)
include h

/-- What a configuration accepts, a narrower one accepts too. -/
theorem Config.Narrows.accepts {line : Text} (ha : c.accepts line = true) :
    c'.accepts line = true := by
  unfold Config.accepts at ha ⊢
  rw [Bool.and_eq_true, Bool.and_eq_true, decide_eq_true_eq] at ha ⊢
  rw [h.markers_eq, h.shapes_eq]
  exact ⟨⟨Int.le_trans h.width_le ha.1.1, ha.1.2⟩, ha.2⟩

theorem lineSites_sublist (base : Int) (line : Text) :
    (lineSites c base line).Sublist (lineSites c' base line) := by
  unfold lineSites
  by_cases ha : c.accepts line = true
  · rw [if_pos ha, if_pos (h.accepts ha)]
  · rw [if_neg ha]
    exact List.nil_sublist _

/-- **A narrower width has all the sites of a wider one**, in their order. -/
theorem sitesFrom_sublist (lines : List Text) : ∀ base : Int,
    (sitesFrom c base lines).Sublist (sitesFrom c' base lines) := by
  induction lines with
  | nil => exact fun base => List.Sublist.refl _
  | cons line lines ih => exact fun base => (lineSites_sublist h base _).append (ih _)

end Sites

/-! ### Outlines -/

/-- What of an expression does not depend on the layout. -/
structure Outline where
  quote : Span
  found : Match
  column : Nat
  regions : List Region
  deriving DecidableEq

/-- The outline of an expression. -/
def Expression.outline (e : Expression) : Outline := ⟨e.quote, e.found, e.column, e.regions⟩

/-- The outline that every expression of a site has. -/
def Site.outline (site : Site) : Outline where
  quote := site.quote
  found := site.found
  column := site.column
  regions :=
    match (Source.ofText site.body).regions site.found.extent with
    | .ok regions => regions.map (·.shift site.quote.start)
    | .error _ => []

theorem Site.outline_of_make {config : Config} {level : Option Int} {site : Site} {e : Expression}
    (h : site.make config level = .ok e) : e.outline = site.outline := by
  unfold Site.make Expression.make at h
  obtain ⟨regions, hregions, h⟩ := exists_of_bind_eq_ok h
  obtain ⟨folding, -, h⟩ := exists_of_bind_eq_ok h
  obtain ⟨is, -, h⟩ := exists_of_bind_eq_ok h
  cases h
  unfold Expression.outline Site.outline
  rw [hregions]

theorem map_eq_of_forall₂ {α β γ : Type} {f : α → γ} {g : β → γ} {as : List α} {bs : List β}
    (h : List.Forall₂ (fun a b => g b = f a) as bs) : bs.map g = as.map f := by
  have heq : List.Forall₂ Eq (bs.map g) (as.map f) :=
    List.forall₂_map_left_iff.mpr (List.forall₂_map_right_iff.mpr h.flip)
  rwa [List.forall₂_eq_eq_eq] at heq

namespace Session

/-- **The outlines of a session are those of its sites.** -/
theorem Valid.outlines_eq {s : Session} (h : s.Valid) :
    s.expressions.map Expression.outline = s.sites.map Site.outline :=
  map_eq_of_forall₂ (h.made.imp fun _ _ => Site.outline_of_make)

theorem Valid.outlines_sublist {s s' : Session} (h : s.Valid) (h' : s'.Valid)
    (hc : s'.config.Narrows s.config) (hlines : s'.lines = s.lines) :
    (s.expressions.map Expression.outline).Sublist (s'.expressions.map Expression.outline) := by
  rw [h.outlines_eq, h'.outlines_eq]
  unfold sites
  rw [hlines]
  exact (sitesFrom_sublist hc s.lines 0).map _

/-! ### Feeding two sessions -/

/-- Sessions with the same output go on having it, whatever their configurations are. -/
theorem Valid.feeds_both {s s' : Session} (h : s.Valid) (h' : s'.Valid)
    (hlines : s'.lines = s.lines) (htail : s'.tail.flatten = s.tail.flatten)
    (chunks : List Text) :
    ∃ last last' rss rss', s.feeds chunks = .ok (last, rss) ∧ s'.feeds chunks = .ok (last', rss') ∧
      last.Valid ∧ last'.Valid ∧ last.config = s.config ∧ last'.config = s'.config ∧
      last'.lines = last.lines := by
  induction chunks generalizing s s' with
  | nil => exact ⟨s, s', [], [], rfl, rfl, h, h', rfl, rfl, hlines⟩
  | cons chunk chunks ih =>
    obtain ⟨lines, tail, rs, hs, hfeed, -⟩ := h.exists_feed chunk
    obtain ⟨lines', tail', rs', hs', hfeed', -⟩ := h'.exists_feed chunk
    rw [htail, hs] at hs'
    obtain ⟨rfl, hrest⟩ := Prod.mk.inj hs'
    obtain ⟨last, last', rss, rss', hlast, hlast', hrest⟩ :=
      ih (h.feed hfeed) (h'.feed hfeed') (congrArg (· ++ lines) hlines) hrest.symm
    refine ⟨last, last', rs :: rss, rs' :: rss', ?_, ?_, hrest⟩
    · rw [feeds, hfeed]
      simp only [bind, Except.bind, hlast]
    · rw [feeds, hfeed']
      simp only [bind, Except.bind, hlast']

/-! ### The settings of a session -/

end Session

/-- The settings after a request, where they were `config` before it. -/
def Request.settingsOn (config : Config) : Request → Config
  | .reconfigure config' => config'
  | _ => config

namespace Session

theorem Leaves.config_eq {s next : Session} {request : Request} (h : s.Leaves request next) :
    next.config = request.settingsOn s.config := by
  cases h with
  | fed hs hsites => rfl
  | found => rfl
  | refused htwin => exact htwin.same.config_eq
  | folded hsite he => rfl
  | reconfigured htwin hes => exact htwin.same.config_eq
  | reset => rfl
  | read => rfl

/-- **The settings of a session** are those that were set last. -/
theorem config_reached (config : Config) (requests : List Request) :
    (reached config requests).config = requests.foldl Request.settingsOn config := by
  suffices hall : ∀ {s : Session}, s.Valid →
      (s.after requests).config = requests.foldl Request.settingsOn s.config from
    hall (valid_new config)
  induction requests with
  | nil => exact fun _ => rfl
  | cons request requests ih =>
    intro s h
    rw [List.foldl_cons, ← (h.leaves request).config_eq]
    exact ih (h.serve request)

/-! ### There and back -/

/-- **Every expression is at the level that its quote has.** -/
theorem Valid.refolded {s : Session} (h : s.Valid) :
    List.Forall₂ (s.Refolded s.config) s.sites s.expressions := by
  refine List.forall₂_iff_get.mpr ⟨h.made.length_eq, fun i hi hi' => ?_⟩
  have hmade : Made s.config _ _ := (List.forall₂_iff_get.mp h.made).2 i hi hi'
  have hlevel := h.levelOf_quote (List.get_mem s.expressions ⟨i, hi'⟩)
  rw [(Expression.of_make hmade).1] at hlevel
  unfold Refolded
  rw [hlevel]
  exact hmade

/-- The outlines of expressions that are made again, with their levels. -/
theorem outlines_of_refolded {s : Session} {config : Config} {sites : List Site}
    {es : List Expression} (h : List.Forall₂ (s.Refolded config) sites es) :
    es.map (fun e => (e.outline, e.fold.level)) =
      sites.map fun site => (site.outline, s.levelOf site.quote) := by
  refine map_eq_of_forall₂ (h.imp fun site e he => ?_)
  rw [Site.outline_of_make he, (Expression.of_make he).2.2.2.1]

/-- A session with other settings has the levels of the session before, where it has the site. -/
theorem levelOf_of_refolded {s s' : Session} (h' : s'.Valid)
    (hes : List.Forall₂ (s.Refolded s'.config) s'.sites s'.expressions) {site : Site}
    (hsite : site ∈ s'.sites) : s'.levelOf site.quote = s.levelOf site.quote := by
  obtain ⟨i, hi, rfl⟩ := List.getElem_of_mem hsite
  have hi' : i < s'.expressions.length := hes.length_eq ▸ hi
  have hmake : s.Refolded s'.config s'.sites[i] s'.expressions[i] :=
    (List.forall₂_iff_get.mp hes).2 i hi hi'
  obtain ⟨hquote, -, -, hlevel, -⟩ := Expression.of_make hmake
  rw [← hquote, h'.levelOf_quote (List.getElem_mem hi'), hlevel, hquote]

/-- **A narrower width keeps the expressions and their levels, and the width before brings the
session back.** -/
theorem Valid.exists_narrowed {s : Session} (h : s.Valid) {c' : Config}
    (hc : c'.Narrows s.config) : ∃ s' back, s.withConfig c' = .ok s' ∧
      (s.expressions.map fun e => (e.outline, e.fold.level)).Sublist
        (s'.expressions.map fun e => (e.outline, e.fold.level)) ∧
      s'.withConfig s.config = .ok back ∧ s.Twin back := by
  obtain ⟨es, s', hs', htwin, hes⟩ := h.exists_reconfigure c'
  have h' : s'.Valid := (h.reconfigured hes).twin htwin
  obtain ⟨⟨hconfig, -, hlines, -⟩, hexprs⟩ := htwin.same
  obtain rfl : s'.expressions = es := hexprs
  have hsites : s'.sites = sitesFrom c' 0 s.lines := by
    unfold sites
    rw [hconfig, hlines]
    rfl
  have hes' : List.Forall₂ (s.Refolded s'.config) s'.sites s'.expressions := by
    rw [hsites, hconfig]
    exact hes
  have hsub : s.sites.Sublist s'.sites := hsites ▸ sitesFrom_sublist hc s.lines 0
  obtain ⟨back, last, hback, hlast, hrefolded⟩ := h'.exists_reconfigure s.config
  have hall : List.Forall₂ (s'.Refolded s.config) s.sites back := by
    have hlines' : s'.lines = s.lines := hlines
    rwa [hlines'] at hrefolded
  have hmem := (List.forall₂_and_left _ _).mpr ⟨fun site (hsite : site ∈ s.sites) => hsite, hall⟩
  -- the levels found on the way back are those of the session before
  have hsame : List.Forall₂ (s.Refolded s.config) s.sites back := by
    refine hmem.imp fun site e he => ?_
    unfold Refolded
    rw [← levelOf_of_refolded h' hes' (hsub.subset he.1)]
    exact he.2
  obtain rfl := List.right_unique_forall₂' (rightUnique_refolded s s.config) hsame h.refolded
  refine ⟨s', last, withConfig_of_reconfigure hs', ?_, withConfig_of_reconfigure hback, ?_⟩
  · rw [outlines_of_refolded h.refolded, outlines_of_refolded hes']
    exact hsub.map _
  · -- nothing but the settings and the expressions was changed, and both are back
    refine ⟨?_, hlast.text_eq.trans htwin.text_eq⟩
    rw [hlast.eq_with, htwin.eq_with]
    rfl

end Session

/-- **Narrowing only adds.** Of two sessions that are fed the same output, the narrower one has all
expressions of the other, in their order and with the same quotes, matches, columns and regions. A
session that can be reached keeps its expressions and their levels under a narrower width, and is
again what it was, but that its text may be at hand, when the width before is set again. -/
theorem narrowing_only_adds {c c' : Config} (h : c'.Narrows c) :
    (∀ chunks : List Text, ∃ s s' rss rss',
      (Session.new c).feeds chunks = .ok (s, rss) ∧
      (Session.new c').feeds chunks = .ok (s', rss') ∧
      (s.expressions.map Expression.outline).Sublist (s'.expressions.map Expression.outline)) ∧
    ∀ (config : Config) (requests : List Request),
      let s := Session.reached config requests
      s.config = c → ∃ s' back, s.withConfig c' = .ok s' ∧
        (s.expressions.map fun e => (e.outline, e.fold.level)).Sublist
          (s'.expressions.map fun e => (e.outline, e.fold.level)) ∧
        s'.withConfig c = .ok back ∧ s.Twin back := by
  refine ⟨fun chunks => ?_, fun config requests => ?_⟩
  · obtain ⟨s, s', rss, rss', hs, hs', hv, hv', hc, hc', hlines⟩ :=
      (Session.valid_new c).feeds_both (Session.valid_new c') rfl rfl chunks
    have hnarrow : s'.config.Narrows s.config := by
      rw [hc, hc']
      exact h
    exact ⟨s, s', rss, rss', hs, hs', hv.outlines_sublist hv' hnarrow hlines⟩
  · intro s hconfig
    rw [← hconfig] at h ⊢
    exact (Session.valid_reached config requests).exists_narrowed h

/-- Of two lines the second is long enough for a width of 40, and its expression is folded. A width
of 30 adds the two expressions of the first line, and a width of 40 takes them away again. -/
theorem narrowing_only_adds_line :
    let s := Session.reached { width := 40 } [.feed ("a.c:1:2: error: bad 'v<i>' and 'w<j>'\n" ++
      "bigger.c:10:2: error: a call of 'x<y>' is bad\n").toList, .fold 71 (some 1)]
    s.expressions.map (fun e => (e.quote, e.fold.level)) = [(⟨71, 75⟩, some 1)] ∧
    ∃ s' back, s.withConfig { width := 30 } = .ok s' ∧ s'.expressions.length = 3 ∧
      (s.expressions.map fun e => (e.outline, e.fold.level)).Sublist
        (s'.expressions.map fun e => (e.outline, e.fold.level)) ∧
      s'.withConfig { width := 40 } = .ok back ∧ s.Twin back := by
  intro s
  have hcount : (s.withConfig { width := 30 }).toOption.map (·.expressions.length) = some 3 := by
    decide +kernel
  have hnarrows : Config.Narrows { width := 30 } { width := 40 } :=
    ⟨by decide, rfl, rfl, rfl, rfl⟩
  obtain ⟨-, hall⟩ := narrowing_only_adds hnarrows
  have hconfig : s.config = { width := 40 } := Session.config_reached _ _
  obtain ⟨s', back, hs', hsub, hback⟩ := hall { width := 40 } _ hconfig
  rw [show s.withConfig { width := 30 } = .ok s' from hs'] at hcount
  exact ⟨by decide +kernel, s', back, hs', Option.some.inj hcount, hsub, hback⟩

end DiagLayout
