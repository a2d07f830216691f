import DiagLayout.Proofs.Feeding

/-!
# Expressions are always those of the text

An expression of a session is what its text and the current settings give, at the level of the
expression. So folding only depends on the site and the level: it can be repeated, taken back, and
exchanged with other folds and with more output (`decoration_never_stale`).
-/

namespace DiagLayout

namespace Session

/-! ### The expression around a position -/

/-- The position lies in the quote of the site or on one of its marks. -/
def siteCovers (position : Int) (site : Site) : Bool :=
  site.quote.start - 1 ≤ position && position ≤ site.quote.stop

theorem findIdx?_covers {config : Config} {sites : List Site} {es : List Expression}
    (h : List.Forall₂ (Made config) sites es) (position : Int) :
    es.findIdx? (covers position) = sites.findIdx? (siteCovers position) := by
  induction h with
  | nil => rfl
  | cons hmade _ ih =>
    rw [List.findIdx?_cons, List.findIdx?_cons, ih, covers, siteCovers,
      (Expression.of_make hmade).1]

/-- Which expression a position belongs to is settled by the sites, and more sites do not change
it. -/
theorem Valid.indexAt_of_isPrefix {s s' : Session} (h : s.Valid) (h' : s'.Valid)
    (hsites : s.sites <+: s'.sites) {position : Int} {i : Nat}
    (hi : s.indexAt position = .ok i) : s'.indexAt position = .ok i := by
  obtain ⟨more, hmore⟩ := hsites
  unfold indexAt at hi ⊢
  rw [findIdx?_covers h.made] at hi
  rw [findIdx?_covers h'.made, ← hmore, List.findIdx?_append]
  cases hidx : s.sites.findIdx? (siteCovers position) with
  | none => rw [hidx] at hi; cases hi
  | some k => rw [hidx] at hi; exact hi

/-! ### Folding by the site -/

/-- Two changes commute in a session: either order gives the same results and leaves sessions that
are the same. -/
def Commute {α β : Type} (s : Session) (f : Session → Except Fault (Session × α))
    (g : Session → Except Fault (Session × β)) : Prop :=
  ∃ s₁ s₂ both both' a b, f s = .ok (s₁, a) ∧ g s₁ = .ok (both, b) ∧ g s = .ok (s₂, b) ∧
    f s₂ = .ok (both', a) ∧ both.Same both'

section Fold

variable {s : Session} (h : s.Valid) {position : Int} {i : Nat} {site : Site} {level : Option Int}
  {e : Expression} (hi : s.indexAt position = .ok i) (hsite : s.sites[i]? = some site)
  (he : site.make s.config level = .ok e)
include h hi hsite he

/-- After a fold, a fold at the same position goes by the same site. -/
theorem Valid.fold_again {level' : Option Int} {e' : Expression}
    (he' : site.make s.config level' = .ok e') :
    (s.withExpression i e).fold position level' = .ok (s.withExpression i e', e') := by
  have h₁ := h.withExpression hsite he
  rw [h₁.fold_of_make (h.indexAt_of_isPrefix h₁ (List.prefix_refl _) hi) hsite he']
  simp [Session.withExpression, text]

/-- **Folds of different expressions commute.** -/
theorem Valid.commute_fold {position' : Int} {j : Nat} {level' : Option Int}
    (hj : s.indexAt position' = .ok j) (hne : i ≠ j) (hl : ∀ n ∈ level', 1 ≤ n) :
    s.Commute (·.fold position level) (·.fold position' level') := by
  obtain ⟨site', e', hsite', he', hfold'⟩ := h.exists_fold hj hl
  have h₁ := h.withExpression hsite he
  have h₂ := h.withExpression hsite' he'
  have hboth :=
    h₁.fold_of_make (h.indexAt_of_isPrefix h₁ (List.prefix_refl _) hj) hsite' he'
  have hswap := h₂.fold_of_make (h.indexAt_of_isPrefix h₂ (List.prefix_refl _) hi) hsite he
  refine ⟨_, _, _, _, e, e', h.fold_of_make hi hsite he, hboth, hfold', hswap, ?_⟩
  exact ⟨⟨rfl, rfl, rfl, rfl⟩, List.set_comm _ _ (Ne.symm hne)⟩

/-- **A fold commutes with more output.** -/
theorem Valid.commute_feed (chunk : Text) : s.Commute (·.fold position level) (·.feed chunk) := by
  obtain ⟨lines, tail, rs, hs, hfeed, -, hsites⟩ := h.exists_feed chunk
  obtain ⟨-, hlines, htail⟩ := splitLines_spec hs
  -- the folded session has the same output, so it accepts the same lines
  obtain ⟨next, both, rs', hnext, hboth, halike, -, hes⟩ :=
    h.feed_alike (h.withExpression hsite he) ⟨rfl, rfl, rfl, rfl⟩ chunk
  cases hfeed.symm.trans hnext
  have hprefix : s.sites <+: (s.extended lines tail rs).sites := by
    refine ⟨sitesFrom s.config (0 + (Text.ofLines s.lines).length) lines, ?_⟩
    exact (sitesFrom_append s.config s.lines lines 0).symm
  have hsite' : (s.extended lines tail rs).sites[i]? = some site := by
    obtain ⟨more, hmore⟩ := hprefix
    rw [← hmore, List.getElem?_append_left (List.getElem?_eq_some_iff.mp hsite).1, hsite]
  have h' := h.extended hlines htail hsites
  have hfold := h'.fold_of_make (h.indexAt_of_isPrefix h' hprefix hi) hsite' he
  refine ⟨_, _, _, _, e, rs, h.fold_of_make hi hsite he, hboth, hfeed, hfold, ?_⟩
  refine ⟨⟨halike.config_eq.symm, halike.cursor_eq.symm, halike.lines_eq.symm,
    halike.text_eq.symm⟩, ?_⟩
  rw [hes]
  exact List.set_append_left _ _ (lt_of_indexAt hi)

end Fold

/-- A new session takes the text in one piece, and has one expression for each site. -/
theorem Valid.exists_feed_new {s : Session} (h : s.Valid) (config : Config) :
    ∃ tail rs, tail.flatten = s.tail.flatten ∧
      (new config).feed s.text = .ok ((new config).extended s.lines tail rs, rs) ∧
      Emitted config (sitesFrom config 0 s.lines) (rs.flatMap (·.expressions)) := by
  obtain ⟨lines, tail, rs, hs, hfeed, -, hsites⟩ := (valid_new config).exists_feed s.text
  have hsplit : splitLines s.text = (s.lines, s.tail.flatten) := by
    rw [h.text_eq]
    exact splitLines_ofLines h.lines_closed h.tail_open
  rw [show (new config).tail.flatten ++ s.text = s.text from rfl, hsplit] at hs
  obtain ⟨rfl, htail⟩ := Prod.mk.inj hs
  exact ⟨tail, rs, htail.symm, hfeed, hsites⟩

theorem Valid.exists_feed_text {s : Session} (h : s.Valid) :
    ∃ fresh rs, (new s.config).feed s.text = .ok (fresh, rs) ∧
      Emitted s.config s.sites (rs.flatMap (·.expressions)) := by
  obtain ⟨tail, rs, -, hfeed, hemitted⟩ := h.exists_feed_new s.config
  exact ⟨_, rs, hfeed, hemitted⟩

/-- **An expression is what the text gives**, under the current settings and at its level. -/
theorem Valid.make_slice {s : Session} (h : s.Valid) {e : Expression} (he : e ∈ s.expressions) :
    ∃ m, Match.best? (Source.ofText (e.quote.slice s.text)) = some m ∧
      Expression.make (e.quote.slice s.text) m e.quote (s.text.column e.quote.start.toNat) s.config
        e.fold.level = .ok e := by
  obtain ⟨site, hstands, hmade⟩ := h.exists_site he
  have hquote := (Expression.of_make hmade).1
  refine ⟨site.found, ?_, ?_⟩
  · rw [hquote, hstands.slice_eq]
    exact hstands.found_eq
  · rw [hquote, hstands.slice_eq, ← hstands.column_eq]
    exact hmade

end Session

/-- **No decoration is ever stale.** Each expression of a session that can be reached, also by
requests that are refused, is what its quote in the text is laid out to, in its column, under the
current settings and at its level. Hence a fold gives the expression at the level asked for; a fold
twice is a fold once; to unfold again gives the expression that the text gives to a new session; and
a fold commutes with a fold of another expression and with more output. -/
theorem decoration_never_stale (config : Config) (requests : List Request) :
    let s := Session.reached config requests
    (∀ e ∈ s.expressions, ∃ m, Match.best? (Source.ofText (e.quote.slice s.text)) = some m ∧
      Expression.make (e.quote.slice s.text) m e.quote (s.text.column e.quote.start.toNat) s.config
        e.fold.level = .ok e) ∧
    ∀ (position : Int) (i : Nat) (level : Option Int), s.indexAt position = .ok i →
      (∀ n ∈ level, 1 ≤ n) →
        (∃ folded e, s.fold position level = .ok (folded, e) ∧ e.fold.level = level ∧
          folded.expressions[i]? = some e ∧ folded.fold position level = .ok (folded, e) ∧
          ∃ fresh rs e₀, (Session.new s.config).feed s.text = .ok (fresh, rs) ∧
            (rs.flatMap (·.expressions))[i]? = some e₀ ∧
            folded.fold position none = .ok (s.withExpression i e₀, e₀)) ∧
        (∀ (position' : Int) (j : Nat) (level' : Option Int), s.indexAt position' = .ok j →
          i ≠ j → (∀ n ∈ level', 1 ≤ n) →
            s.Commute (·.fold position level) (·.fold position' level')) ∧
        ∀ chunk : Text, s.Commute (·.fold position level) (·.feed chunk) := by
  intro s
  have h : s.Valid := Session.valid_reached config requests
  refine ⟨fun e he => h.make_slice he, fun position i level hi hl => ?_⟩
  obtain ⟨site, e, hsite, he, hfold⟩ := h.exists_fold hi hl
  refine ⟨⟨_, e, hfold, (Expression.of_make he).2.2.2.1,
    List.getElem?_set_self (Session.lt_of_indexAt hi), h.fold_again hi hsite he he, ?_⟩,
    fun position' j level' hj hne hl' => h.commute_fold hi hsite he hj hne hl',
    fun chunk => h.commute_feed hi hsite he chunk⟩
  obtain ⟨fresh, rs, hfeed, hemitted⟩ := h.exists_feed_text
  obtain ⟨hlen, hall⟩ := List.forall₂_iff_get.mp hemitted
  obtain ⟨hlt, hget⟩ := List.getElem?_eq_some_iff.mp hsite
  have he₀ := hall i hlt (hlen ▸ hlt)
  rw [List.get_eq_getElem, hget] at he₀
  exact ⟨fresh, rs, _, hfeed, List.getElem?_eq_getElem (hlen ▸ hlt), h.fold_again hi hsite he he₀⟩

/-- Two expressions of one line, the second of them folded, and then a fold that is refused. -/
theorem decoration_never_stale_two :
    let s := Session.reached { width := 10 }
      [.feed "a.c:1:2: error: bad 'v<i>' and 'w<j>'\n".toList, .fold 33 (some 1), .fold 21 (some 0)]
    s.indexAt 21 = .ok 0 ∧ s.indexAt 33 = .ok 1 ∧
      (∃ folded e, s.fold 21 (some 1) = .ok (folded, e) ∧ e.fold.level = some 1 ∧
        folded.fold 21 (some 1) = .ok (folded, e)) ∧
      s.Commute (·.fold 21 (some 1)) (·.fold 33 none) := by
  intro s
  have h0 : s.indexAt 21 = .ok 0 := by decide +kernel
  have h1 : s.indexAt 33 = .ok 1 := by decide +kernel
  obtain ⟨⟨folded, e, hfold, hlevel, -, hagain, -⟩, hcommute, -⟩ :=
    (decoration_never_stale _ _).2 21 0 (some 1) h0 (by simp)
  exact ⟨h0, h1, ⟨folded, e, hfold, hlevel, hagain⟩, hcommute 33 1 none h1 (by decide) (by simp)⟩

end DiagLayout
