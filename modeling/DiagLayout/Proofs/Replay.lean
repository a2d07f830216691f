import DiagLayout.Proofs.Freshness
import DiagLayout.Proofs.Rendering

/-!
# Other settings are a replay

To change the settings of a session is to feed its text to a new session with these settings and to
fold there what was folded before. The levels go over by quote, which works because no two
expressions have the same quote (`Valid.eq_of_quote`), and every expression is the one that a
position in its quote finds (`Valid.indexAt_of_covers`). Sessions that are alike go on so
(`Valid.feeds_alike`).

The main result is `other_settings_are_a_replay`.
-/

namespace DiagLayout

namespace Session

/-! ### An expression and its quote -/

theorem Valid.quote_le {s : Session} (h : s.Valid) {e : Expression} (he : e ∈ s.expressions) :
    e.quote.start ≤ e.quote.stop := by
  have := (h.within he).found_le
  omega

theorem Valid.covers_start {s : Session} (h : s.Valid) {e : Expression} (he : e ∈ s.expressions) :
    covers e.quote.start e = true := by
  have hle := h.quote_le he
  unfold covers
  simp only [Bool.and_eq_true, decide_eq_true_eq]
  omega

theorem Valid.eq_of_quote {s : Session} (h : s.Valid) {e e' : Expression}
    (he : e ∈ s.expressions) (he' : e' ∈ s.expressions) (hq : e.quote = e'.quote) : e = e' := by
  by_contra hne
  have hle := h.quote_le he
  rcases rel_or_rel_of_pairwise h.expressions_apart he he' hne with hlt | hlt
  · rw [← hq] at hlt
    omega
  · rw [← hq] at hlt
    omega

theorem Valid.levelOf_quote {s : Session} (h : s.Valid) {e : Expression}
    (he : e ∈ s.expressions) : s.levelOf e.quote = e.fold.level := by
  unfold levelOf
  cases hfind : s.expressions.reverse.find?
      (fun x => x.quote == e.quote && x.fold.level.isSome) with
  | none =>
    have hlevel := List.find?_eq_none.mp hfind e (List.mem_reverse.mpr he)
    simp only [beq_self_eq_true, Bool.true_and, Option.not_isSome_iff_eq_none] at hlevel
    rw [hlevel]
    rfl
  | some x =>
    have hx : x ∈ s.expressions := List.mem_reverse.mp (List.mem_of_find?_eq_some hfind)
    have hq := List.find?_some hfind
    simp only [Bool.and_eq_true, beq_iff_eq] at hq
    rw [h.eq_of_quote hx he hq.1]
    rfl

theorem levelOf_eq_none {s : Session} {quote : Span}
    (h : ∀ e ∈ s.expressions, e.quote = quote → e.fold.level = none) : s.levelOf quote = none := by
  unfold levelOf
  rw [List.find?_eq_none.mpr, Option.bind_none]
  intro e he
  simp only [Bool.and_eq_true, beq_iff_eq, not_and, Option.not_isSome_iff_eq_none]
  exact h e (List.mem_reverse.mp he)

/-- **A position finds the expression whose quote it lies in**: no earlier one covers it. -/
theorem Valid.indexAt_of_covers {s : Session} (h : s.Valid) {i : Nat} {e : Expression}
    {position : Int} (he : s.expressions[i]? = some e) (hcovers : covers position e = true) :
    s.indexAt position = .ok i := by
  obtain ⟨hlt, rfl⟩ := List.getElem?_eq_some_iff.mp he
  have hfind : s.expressions.findIdx? (covers position) = some i := by
    refine List.findIdx?_eq_some_iff_getElem.mpr ⟨hlt, hcovers, ?_⟩
    intro k hk hbefore
    have hapart := List.pairwise_iff_getElem.mp h.expressions_apart k i (by omega) hlt hk
    simp only [covers, Bool.and_eq_true, decide_eq_true_eq] at hcovers hbefore
    omega
  rw [indexAt, hfind]

/-! ### Piece after piece -/

/-- The session after pieces of output, and the results for each piece. -/
def feeds (s : Session) : List Text → Except Fault (Session × List (List LineReport))
  | [] => .ok (s, [])
  | chunk :: chunks => do
    let (next, rs) ← s.feed chunk
    let (last, rss) ← next.feeds chunks
    .ok (last, rs :: rss)

/-- **Sessions that are alike go on alike**: more output gives the same results, and adds the same
expressions to both. -/
theorem Valid.feeds_alike {s s' : Session} (h : s.Valid) (h' : s'.Valid) (halike : s.Alike s')
    (chunks : List Text) : ∃ last last' rss,
      s.feeds chunks = .ok (last, rss) ∧ s'.feeds chunks = .ok (last', rss) ∧ last.Alike last' ∧
      last.expressions = s.expressions ++ rss.flatten.flatMap (·.expressions) ∧
      last'.expressions = s'.expressions ++ rss.flatten.flatMap (·.expressions) := by
  induction chunks generalizing s s' with
  | nil => exact ⟨s, s', [], rfl, rfl, halike, by simp, by simp⟩
  | cons chunk chunks ih =>
    obtain ⟨next, next', rs, hfeed, hfeed', hnext, hes, hes'⟩ := h.feed_alike h' halike chunk
    obtain ⟨last, last', rss, hlast, hlast', hand, hexprs, hexprs'⟩ :=
      ih (h.feed hfeed) (h'.feed hfeed') hnext
    refine ⟨last, last', rs :: rss, ?_, ?_, hand, ?_, ?_⟩
    · rw [feeds, hfeed]
      simp only [bind, Except.bind, hlast]
    · rw [feeds, hfeed']
      simp only [bind, Except.bind, hlast']
    · rw [hexprs, hes]
      simp
    · rw [hexprs', hes']
      simp

/-! ### The replay -/

/-- **Levels go over by quote.** Where the new session has an expression, the session with other
settings has the same one, folded there as the quote was folded before. -/
theorem Valid.refolded_getElem? {s fresh : Session} (h : s.Valid) (hf : fresh.Valid)
    {es : List Expression} (hemit : Emitted fresh.config fresh.sites fresh.expressions)
    (hes : List.Forall₂ (s.Refolded fresh.config) fresh.sites es) {i : Nat} {e : Expression}
    (hi : fresh.expressions[i]? = some e) : ∃ e', es[i]? = some e' ∧
      ((∀ old ∈ s.expressions, old.quote = e.quote → old.fold.level = none) → e' = e) ∧
      ∀ old ∈ s.expressions, old.quote = e.quote → ∀ position, covers position e = true →
        fresh.fold position old.fold.level = .ok (fresh.withExpression i e', e') := by
  obtain ⟨hlt, rfl⟩ := List.getElem?_eq_some_iff.mp hi
  have hsite : i < fresh.sites.length := hemit.length_eq ▸ hlt
  have hlt' : i < es.length := hes.length_eq ▸ hsite
  have hmake := (List.forall₂_iff_get.mp hemit).2 i hsite hlt
  have hrefolded := (List.forall₂_iff_get.mp hes).2 i hsite hlt'
  simp only [List.get_eq_getElem] at hmake hrefolded
  have hquote := (Expression.of_make hmake).1
  unfold Refolded at hrefolded
  refine ⟨es[i], List.getElem?_eq_getElem hlt', ?_, ?_⟩
  · intro hnone
    rw [← hquote, levelOf_eq_none hnone] at hrefolded
    exact Except.ok.inj (hrefolded.symm.trans hmake)
  · rintro old hold hq position hcovers
    rw [← hquote, ← hq, h.levelOf_quote hold] at hrefolded
    exact hf.fold_of_make (hf.indexAt_of_covers hi hcovers) (List.getElem?_eq_getElem hsite)
      hrefolded

end Session

/-- **Other settings are a replay.** A session that can be reached takes other settings without
fail, and gives its expressions under them. Its text, cursor and tail stay, and it is then like a
new session with these settings that is fed the text in one piece. Its expressions are those of the
new session in their order, each as it is where its quote was not folded, and else folded in the new
session to the level that the quote had. All later output has the same results in both. -/
theorem other_settings_are_a_replay (config : Config) (requests : List Request) (config' : Config) :
    let s := Session.reached config requests
    ∃ s' fresh rs, s.reconfigure config' = .ok (s', s'.expressions) ∧
      (Session.new config').feed s.text = .ok (fresh, rs) ∧
      s'.config = config' ∧ s'.text = s.text ∧ s'.cursor = s.cursor ∧ s'.lines = s.lines ∧
      s'.tail = s.tail ∧ fresh.Alike s' ∧
      s'.expressions.length = fresh.expressions.length ∧
      (∀ (i : Nat) (e : Expression), fresh.expressions[i]? = some e →
        ∃ e', s'.expressions[i]? = some e' ∧
          ((∀ old ∈ s.expressions, old.quote = e.quote → old.fold.level = none) → e' = e) ∧
          Session.covers e.quote.start e = true ∧
          ∀ old ∈ s.expressions, old.quote = e.quote → ∀ position,
            Session.covers position e = true →
              fresh.fold position old.fold.level = .ok (fresh.withExpression i e', e')) ∧
      ∀ chunks : List Text, ∃ last last' rss,
        fresh.feeds chunks = .ok (last, rss) ∧ s'.feeds chunks = .ok (last', rss) ∧
        last.Alike last' ∧
        last.expressions = fresh.expressions ++ rss.flatten.flatMap (·.expressions) ∧
        last'.expressions = s'.expressions ++ rss.flatten.flatMap (·.expressions) := by
  intro s
  have h : s.Valid := Session.valid_reached config requests
  obtain ⟨es, s', hs', htwin, hrefolded⟩ := h.exists_reconfigure config'
  obtain ⟨tail, rs, htail, hfeed, hemitted⟩ := h.exists_feed_new config'
  have hvalid := (h.reconfigured hrefolded).twin htwin
  have hfresh := (Session.valid_new config').feed hfeed
  obtain ⟨⟨hconfig, hcursor, hlines, htext⟩, hes⟩ := htwin.same
  have htail' : s'.tail = s.tail := by
    rw [htwin.eq_with]
    rfl
  have halike : ((Session.new config').extended s.lines tail rs).Alike s' := by
    refine ⟨hconfig, hcursor.trans ?_, hlines, htext.trans ?_⟩
    · simp [Session.reconfigured, Session.extended, Session.advanced, Session.new, h.cursor_eq]
    · rw [show (s.reconfigured config' es).text = s.text from rfl, h.text_eq, Session.output_eq,
        ← htail]
      rfl
  obtain rfl : s'.expressions = es := hes
  refine ⟨s', _, rs, hs', hfeed, hconfig, htext, hcursor, hlines, htail', halike, ?_, ?_, ?_⟩
  · exact hrefolded.length_eq.symm.trans hemitted.length_eq
  · intro i e hi
    obtain ⟨e', he', hsame, hfold⟩ := h.refolded_getElem? hfresh hemitted hrefolded hi
    exact ⟨e', he', hsame, hfresh.covers_start (List.mem_of_getElem? hi), hfold⟩
  · intro chunks
    exact hfresh.feeds_alike hvalid halike chunks

/-- A line of two expressions, the second folded, under a narrower width. -/
theorem other_settings_are_a_replay_narrower :
    let s := Session.reached { width := 10 }
      [.feed "a.c:1:2: error: bad 'v<i>' and 'w<j>'\nin".toList, .fold 33 (some 1)]
    ∃ s' fresh rs e', s.reconfigure { width := 8 } = .ok (s', s'.expressions) ∧
      (Session.new { width := 8 }).feed s.text = .ok (fresh, rs) ∧ s'.expressions[1]? = some e' ∧
      fresh.fold 33 (some 1) = .ok (fresh.withExpression 1 e', e') := by
  intro s
  obtain ⟨s', fresh, rs, hs', hfeed, -, -, -, -, -, -, -, hall, -⟩ :=
    other_settings_are_a_replay { width := 10 }
      [.feed "a.c:1:2: error: bad 'v<i>' and 'w<j>'\nin".toList, .fold 33 (some 1)] { width := 8 }
  have hold : ∃ old ∈ s.expressions, old.quote = ⟨32, 36⟩ ∧ old.fold.level = some 1 := by
    decide +kernel
  have hquote : (((Session.new { width := 8 }).feed s.text).toOption.bind fun p =>
      p.1.expressions[1]?).map (·.quote) = some ⟨32, 36⟩ := by decide +kernel
  obtain ⟨old, hmem, hq, hlevel⟩ := hold
  rw [hfeed] at hquote
  obtain ⟨e, he, hqe⟩ := Option.map_eq_some_iff.mp hquote
  obtain ⟨e', he', -, -, hfold⟩ := hall 1 e he
  have hcovers : Session.covers 33 e = true := by
    rw [Session.covers, hqe]
    decide
  exact ⟨s', fresh, rs, e', hs', hfeed, he',
    hlevel ▸ hfold old hmem (hq.trans hqe.symm) 33 hcovers⟩

end DiagLayout
