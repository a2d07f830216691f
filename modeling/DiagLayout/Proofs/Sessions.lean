import DiagLayout.Proofs.Sites

/-!
# Sessions and their requests

A session serves requests: more output, a fold, other settings, a reset, a look at its text. What
each of them can leave behind is said once (`Session.Leaves`), and every invariant is derived from
it. `Session.Valid` holds of a new session and is kept by every request, be it refused or not
(`Session.Valid.serve`), so it holds of every session that can be reached (`Session.valid_reached`).
It says that the cursor stands behind the complete lines, that the text at hand is the whole text,
and that the expressions are those of the sites of the lines, each at its own level.

For a valid session each change is given outright:

* `Session.Valid.exists_feed`: feeding, which never fails;
* `Session.Valid.exists_reconfigure`: other settings, which never fail;
* `Session.Valid.run_fold`: folding at a position that is found, with what a refusal leaves behind.
-/

namespace DiagLayout

/-! ### Changes and what they leave behind -/

namespace SessionM

variable {α β : Type} {op : SessionM α} {s next : Session} {a : α} {f : Fault}

theorem outcome_eq_ok_iff : op.outcome s = .ok (next, a) ↔ op.run s = .ok a next := by
  unfold outcome
  cases op.run s <;> simp [and_comm]

theorem outcome_of_run_ok (h : op.run s = .ok a next) : op.outcome s = .ok (next, a) :=
  outcome_eq_ok_iff.mpr h

theorem outcome_of_run_error (h : op.run s = .error f next) : op.outcome s = .error f := by
  rw [outcome, h]

theorem left_of_run_ok (h : op.run s = .ok a next) : op.left s = next := by
  rw [left, h]

theorem left_of_run_error (h : op.run s = .error f next) : op.left s = next := by
  rw [left, h]

theorem left_of_outcome (h : op.outcome s = .ok (next, a)) : op.left s = next :=
  left_of_run_ok (outcome_eq_ok_iff.mp h)

theorem left_map (g : α → β) (op : SessionM α) (s : Session) : (g <$> op).left s = op.left s := by
  simp only [left, map_eq_pure_bind, EStateM.run_bind]
  cases op.run s <;> rfl

theorem outcome_map (g : α → β) (op : SessionM α) (s : Session) :
    (g <$> op).outcome s = (op.outcome s).map fun p => (p.1, g p.2) := by
  simp only [outcome, map_eq_pure_bind, EStateM.run_bind]
  cases op.run s <;> rfl

@[simp] theorem run_ofExcept (x : Except Fault α) (s : Session) :
    (ofExcept x : SessionM α).run s = match x with
      | .ok a => .ok a s
      | .error f => .error f s := by
  cases x <;> rfl

end SessionM

namespace Session

/-- The session after requests. -/
def after (s : Session) (requests : List Request) : Session := requests.foldl serve s

/-- The session that requests lead to from a new one. -/
def reached (config : Config) (requests : List Request) : Session := (new config).after requests

/-- What requests give one after the other. -/
def answers (s : Session) : List Request → List (Except Fault Answer)
  | [] => []
  | request :: requests => s.answer request :: (s.serve request).answers requests

/-! ### Reading the text -/

/-- The session with its text at hand. -/
def withText (s : Session) : Session := { s with joined := some s.text }

@[simp] theorem run_read (s : Session) : SessionM.read.run s = .ok s.text s.withText := by
  obtain ⟨config, cursor, expressions, lines, tail, _ | t⟩ := s <;> rfl

/-- **Sessions that differ at most in whether their text is at hand.** -/
structure Twin (s s' : Session) : Prop where
  eq_with : s' = { s with joined := s'.joined }
  text_eq : s'.text = s.text

theorem Twin.refl (s : Session) : s.Twin s := ⟨rfl, rfl⟩

theorem Twin.trans {s s' s'' : Session} (h : s.Twin s') (h' : s'.Twin s'') : s.Twin s'' := by
  refine ⟨?_, h'.text_eq.trans h.text_eq⟩
  rw [h'.eq_with, h.eq_with]

theorem twin_withText (s : Session) : s.Twin s.withText := ⟨rfl, rfl⟩

/-! ### Valid sessions -/

/-- The sites of the complete lines. -/
def sites (s : Session) : List Site := sitesFrom s.config 0 s.lines

/-- The expression is that of the site, at its own level. -/
def Made (config : Config) (site : Site) (e : Expression) : Prop :=
  site.make config e.fold.level = .ok e

theorem made_of_make {config : Config} {level : Option Int} {site : Site} {e : Expression}
    (h : site.make config level = .ok e) : Made config site e := by
  rw [Made, (Expression.of_make h).2.2.2.1]
  exact h

/-- **What holds of a session at all times.** -/
structure Valid (s : Session) : Prop where
  cursor_eq : s.cursor = (Text.ofLines s.lines).length
  lines_closed : ∀ line ∈ s.lines, '\n' ∉ line
  tail_open : '\n' ∉ s.tail.flatten
  joined_eq : ∀ t ∈ s.joined, t = s.output
  made : List.Forall₂ (Made s.config) s.sites s.expressions

theorem output_eq (s : Session) : s.output = Text.ofLines s.lines ++ s.tail.flatten := rfl

/-- **The text that is read is the lines and the tail.** -/
theorem Valid.text_eq {s : Session} (h : s.Valid) : s.text = s.output := by
  unfold text
  cases hj : s.joined with
  | none => rfl
  | some t => exact h.joined_eq t hj

theorem valid_new (config : Config) : (new config).Valid :=
  ⟨rfl, by simp [new], by simp [new], by simp [new], .nil⟩

theorem Valid.twin {s s' : Session} (h : s.Valid) (htwin : s.Twin s') : s'.Valid := by
  have htext := htwin.text_eq
  rw [h.text_eq] at htext
  rw [htwin.eq_with]
  refine ⟨h.cursor_eq, h.lines_closed, h.tail_open, fun t ht => ?_, h.made⟩
  have hread : s'.text = t := by
    unfold text
    rw [show s'.joined = some t from ht]
    rfl
  exact hread.symm.trans htext

theorem Valid.standsIn {s : Session} (h : s.Valid) : ∀ site ∈ s.sites, site.StandsIn s.text := by
  rw [h.text_eq]
  exact standsIn_sitesFrom s.config h.lines_closed s.tail.flatten
    (show Text.EndsLine [] from Or.inl rfl)

/-- Every expression has its site. -/
theorem Valid.exists_site {s : Session} (h : s.Valid) {e : Expression} (he : e ∈ s.expressions) :
    ∃ site, site.StandsIn s.text ∧ Made s.config site e := by
  obtain ⟨i, hi, rfl⟩ := List.getElem_of_mem he
  have hi' : i < s.sites.length := by rw [h.made.length_eq]; exact hi
  exact ⟨s.sites[i], h.standsIn _ (List.getElem_mem hi'),
    (List.forall₂_iff_get.mp h.made).2 i hi' hi⟩

/-! ### Feeding -/

/-- The session with more complete lines and the expressions of their reports. -/
def advanced (s : Session) (lines : List Text) (rs : List LineReport) : Session :=
  { s with
    cursor := s.cursor + (Text.ofLines lines).length
    expressions := s.expressions ++ rs.flatMap (·.expressions)
    lines := s.lines ++ lines }

/-- The session with more complete lines, the expressions of their reports, and a tail. -/
def extended (s : Session) (lines tail : List Text) (rs : List LineReport) : Session :=
  { s.advanced lines rs with tail, joined := none }

/-- The report of a complete line at an offset. Carriage returns at its end do not belong to it. -/
def report (config : Config) (line : Text) (base : Nat) : Except Fault LineReport :=
  examineLine (line.trimEnd '\r') base config

/-- Reports are determined by what the lines give. -/
theorem eq_of_map_ok {rs rs' : List LineReport}
    (h : rs.map (Except.ok : LineReport → Except Fault LineReport) = rs'.map Except.ok) :
    rs = rs' :=
  List.map_injective_iff.mpr (fun _ _ heq => Except.ok.inj heq) h

theorem exists_acceptLine (s : Session) (line : Text) :
    ∃ r, examineLine (line.trimEnd '\r') s.cursor s.config = .ok r ∧
      (SessionM.acceptLine line).run s = .ok r (s.advanced [line] [r]) ∧
      Emitted s.config (lineSites s.config s.cursor (line.trimEnd '\r')) r.expressions := by
  obtain ⟨r, hr, hsites⟩ := exists_examineLine (line.trimEnd '\r') s.cursor s.config
  refine ⟨r, hr, ?_, hsites⟩
  have hmove : moveCursor { s with lines := s.lines ++ [line] } (s.cursor + line.length + 1) =
      .ok { s with lines := s.lines ++ [line], cursor := s.cursor + line.length + 1 } := by
    rw [moveCursor, if_neg (by simp only; omega)]
  simp only [SessionM.acceptLine, SessionM.moveCursor, EStateM.run_bind, EStateM.run_get,
    SessionM.run_ofExcept, hr, EStateM.run_modify, hmove, EStateM.run_set, EStateM.run_pure]
  simp [advanced, Int.add_assoc]

/-- Complete lines are accepted one after the other, and the cursor always moves on. -/
theorem exists_acceptLines (lines : List Text) : ∀ (s : Session) {c : Nat}, s.cursor = c →
    ∃ rs, (SessionM.acceptLines lines).run s = .ok rs (s.advanced lines rs) ∧
      rs.map Except.ok = Text.mapLines (report s.config) c lines ∧
      Emitted s.config (sitesFrom s.config s.cursor lines) (rs.flatMap (·.expressions)) := by
  induction lines with
  | nil => intro s c _; exact ⟨[], by simp [SessionM.acceptLines, advanced], rfl, .nil⟩
  | cons line lines ih =>
    intro s c hc
    obtain ⟨r, hr, haccept, hsites⟩ := s.exists_acceptLine line
    have hnext : (s.advanced [line] [r]).cursor = (c + line.length + 1 : Nat) := by
      simp [advanced, hc]; omega
    obtain ⟨rs, hrs, hmap, hrest⟩ := ih (s.advanced [line] [r]) hnext
    refine ⟨r :: rs, ?_, ?_, ?_⟩
    · simp only [SessionM.acceptLines, EStateM.run_bind, haccept, hrs, EStateM.run_pure]
      simp [advanced]; omega
    · rw [List.map_cons, hmap, Text.mapLines, report, ← hc, hr]
      rfl
    · rw [sitesFrom, List.flatMap_cons]
      refine List.rel_append hsites ?_
      have hcursor : (s.advanced [line] [r]).cursor = s.cursor + line.length + 1 := by
        rw [hnext, hc]; omega
      rwa [hcursor] at hrest

theorem run_keep (t : Text) (s : Session) :
    ∃ tail, (SessionM.keep t).run s = .ok () { s with tail } ∧
      tail.flatten = s.tail.flatten ++ t := by
  cases t with
  | nil => exact ⟨s.tail, rfl, by simp⟩
  | cons c t => exact ⟨s.tail ++ [c :: t], rfl, by simp⟩

/-- **Feeding never fails.** It gives the reports of the lines that the output completes. -/
theorem Valid.exists_feed {s : Session} (h : s.Valid) (chunk : Text) :
    ∃ lines tail rs, splitLines (s.tail.flatten ++ chunk) = (lines, tail.flatten) ∧
      s.feed chunk = .ok (s.extended lines tail rs, rs) ∧
      rs.map Except.ok = Text.mapLines (report s.config) (Text.ofLines s.lines).length lines ∧
      Emitted s.config (sitesFrom s.config s.cursor lines) (rs.flatMap (·.expressions)) := by
  by_cases hfeed : '\n' ∈ chunk
  · rcases hs : splitLines (s.tail.flatten ++ chunk) with ⟨lines, rest⟩
    obtain ⟨rs, hrs, hmap, hsites⟩ :=
      exists_acceptLines lines { s with joined := none, tail := [] } h.cursor_eq
    obtain ⟨tail, hkeep, htail⟩ :=
      run_keep rest (advanced { s with joined := none, tail := [] } lines rs)
    refine ⟨lines, tail, rs, by rw [htail]; rfl, SessionM.outcome_of_run_ok ?_, hmap, hsites⟩
    simp only [SessionM.feed, EStateM.run_bind, EStateM.run_modify, if_pos hfeed, EStateM.run_get,
      hs, hrs, hkeep, EStateM.run_pure]
    rfl
  · -- no line is completed, and the piece is kept as it is
    obtain ⟨tail, hkeep, htail⟩ := run_keep chunk { s with joined := none }
    refine ⟨[], tail, [], ?_, SessionM.outcome_of_run_ok ?_, rfl, .nil⟩
    · rw [htail]
      refine splitLines_rest fun hmem => ?_
      rcases List.mem_append.mp hmem with hmem | hmem
      · exact h.tail_open hmem
      · exact hfeed hmem
    · simp only [SessionM.feed, EStateM.run_bind, EStateM.run_modify, if_neg hfeed, hkeep,
        EStateM.run_pure]
      simp [Session.extended, advanced]

theorem Emitted.made {config : Config} {sites : List Site} {es : List Expression}
    (h : Emitted config sites es) : List.Forall₂ (Made config) sites es :=
  h.imp fun _ _ => made_of_make

theorem Valid.extended {s : Session} (h : s.Valid) {lines tail : List Text}
    {rs : List LineReport} (hl : ∀ line ∈ lines, '\n' ∉ line) (ht : '\n' ∉ tail.flatten)
    (hsites : Emitted s.config (sitesFrom s.config s.cursor lines) (rs.flatMap (·.expressions))) :
    (s.extended lines tail rs).Valid := by
  refine ⟨?_, fun line hmem => ?_, ht, by simp [Session.extended], ?_⟩
  · simp [Session.extended, advanced, h.cursor_eq]
  · rcases List.mem_append.mp hmem with hmem | hmem
    · exact h.lines_closed line hmem
    · exact hl line hmem
  · have hcursor := h.cursor_eq
    simp only [Session.extended, advanced, sites, sitesFrom_append, Int.zero_add] at hcursor ⊢
    rw [← hcursor]
    exact List.rel_append h.made (Emitted.made hsites)

/-! ### Making an expression again -/

/-- The text still has what the expression was made from. -/
theorem remake_eq {text : Text} {site : Site} {e : Expression} {config : Config}
    {level : Option Int} (hsite : site.StandsIn text) (he : site.make config level = .ok e)
    (config' : Config) (level' : Option Int) :
    e.remake text config' level' = site.make config' level' := by
  obtain ⟨hq, hf, hc, -, -⟩ := Expression.of_make he
  rw [Expression.remake, hq, hf, hc, hsite.slice_eq, Site.make]

/-- The text is read before the expression is made, and is then at hand even if the level is
refused. -/
theorem run_remake (s : Session) (config : Config) (level : Option Int) (e : Expression) :
    (SessionM.remake config level e).run s = match e.remake s.text config level with
      | .ok e' => .ok e' s.withText
      | .error f => .error f s.withText := by
  simp only [SessionM.remake, EStateM.run_bind, run_read, SessionM.run_ofExcept]
  cases e.remake s.text config level <;> rfl

/-- The level found for a quote is one that can be folded. -/
theorem Valid.one_le_levelOf {s : Session} (h : s.Valid) {quote : Span} :
    ∀ n ∈ s.levelOf quote, 1 ≤ n := by
  intro n hn
  obtain ⟨e, he, hlevel⟩ := Option.bind_eq_some_iff.mp hn
  obtain ⟨site, -, hmade⟩ := h.exists_site (List.mem_reverse.mp (List.mem_of_find?_eq_some he))
  exact (Expression.of_make hmade).2.2.2.2 n hlevel

/-- The expression is that of the site, at the level that its quote has in the session. -/
def Refolded (s : Session) (config : Config) (site : Site) (e : Expression) : Prop :=
  site.make config (s.levelOf site.quote) = .ok e

theorem Twin.refolded {s s' : Session} (h : s.Twin s') (config : Config) :
    s'.Refolded config = s.Refolded config := by
  rw [h.eq_with]
  rfl

theorem rightUnique_refolded (s : Session) (config : Config) :
    Relator.RightUnique (s.Refolded config) :=
  fun _ _ _ he he' => Except.ok.inj (he.symm.trans he')

theorem Valid.exists_refold {s : Session} (h : s.Valid) {site : Site} {e : Expression}
    {config : Config} (hsite : site.StandsIn s.text) (he : site.make config none = .ok e) :
    ∃ e' s', (SessionM.refold config e).run s = .ok e' s' ∧ s.Twin s' ∧
      s.Refolded config site e' := by
  have hquote : e.quote = site.quote := (Expression.of_make he).1
  simp only [Refolded, SessionM.refold, EStateM.run_bind, EStateM.run_get, hquote]
  cases hlevel : s.levelOf site.quote with
  | none => exact ⟨e, s, rfl, Twin.refl s, he⟩
  | some n =>
    obtain ⟨e', he', -⟩ := Expression.exists_make hsite.found_eq site.quote site.column config
      fun n' hn' => h.one_le_levelOf n' (hlevel.trans hn')
    refine ⟨e', s.withText, ?_, s.twin_withText, he'⟩
    rw [run_remake, remake_eq hsite he config (some n), show site.make config (some n) = _ from he']

theorem exists_mapM_refold {config : Config} {sites : List Site} {es : List Expression}
    (he : Emitted config sites es) : ∀ {s : Session}, s.Valid →
    (∀ site ∈ sites, site.StandsIn s.text) →
      ∃ es' s', (es.mapM (SessionM.refold config)).run s = .ok es' s' ∧ s.Twin s' ∧
        List.Forall₂ (s.Refolded config) sites es' := by
  induction he with
  | nil => intro s _ _; exact ⟨[], s, rfl, Twin.refl s, .nil⟩
  | cons he _ ih =>
    intro s h hsites
    obtain ⟨e', s', he', htwin, hrefolded⟩ := h.exists_refold (hsites _ List.mem_cons_self) he
    obtain ⟨es', s'', hes', htwin', hrest⟩ := ih (h.twin htwin) fun site hmem => by
      rw [htwin.text_eq]
      exact hsites site (List.mem_cons_of_mem _ hmem)
    rw [htwin.refolded] at hrest
    refine ⟨e' :: es', s'', ?_, htwin.trans htwin', .cons hrefolded hrest⟩
    simp only [List.mapM_cons, EStateM.run_bind, he', hes', EStateM.run_pure]

theorem exists_replay (config : Config) (lines : List Text) :
    ∀ (base : Int) {s : Session}, s.Valid →
      (∀ site ∈ sitesFrom config base lines, site.StandsIn s.text) →
      ∃ es s', (SessionM.replay config base lines).run s = .ok es s' ∧ s.Twin s' ∧
        List.Forall₂ (s.Refolded config) (sitesFrom config base lines) es := by
  induction lines with
  | nil => intro base s _ _; exact ⟨[], s, rfl, Twin.refl s, .nil⟩
  | cons line lines ih =>
    intro base s h hsites
    rw [sitesFrom] at hsites
    obtain ⟨r, hr, hemit⟩ := exists_examineLine (line.trimEnd '\r') base config
    obtain ⟨here, s', hhere, htwin, hrefolded⟩ := exists_mapM_refold hemit h fun site hmem =>
      hsites site (List.mem_append_left _ hmem)
    obtain ⟨rest, s'', hrest, htwin', hrefolded'⟩ := ih (base + line.length + 1) (h.twin htwin)
      fun site hmem => by
        rw [htwin.text_eq]
        exact hsites site (List.mem_append_right _ hmem)
    rw [htwin.refolded] at hrefolded'
    refine ⟨here ++ rest, s'', ?_, htwin.trans htwin', List.rel_append hrefolded hrefolded'⟩
    simp only [SessionM.replay, EStateM.run_bind, SessionM.run_ofExcept, hr, hhere, hrest,
      EStateM.run_pure]

/-- The session under other settings and with other expressions. -/
def reconfigured (s : Session) (config : Config) (es : List Expression) : Session :=
  { s with config, expressions := es }

/-- **Other settings never fail**: all sites of the lines are made again, each at its level. -/
theorem Valid.exists_reconfigure {s : Session} (h : s.Valid) (config : Config) :
    ∃ es next, s.reconfigure config = .ok (next, es) ∧ (s.reconfigured config es).Twin next ∧
      List.Forall₂ (s.Refolded config) (sitesFrom config 0 s.lines) es := by
  have hsites : ∀ site ∈ sitesFrom config 0 s.lines, site.StandsIn s.text := by
    rw [h.text_eq]
    exact standsIn_sitesFrom config h.lines_closed s.tail.flatten
      (show Text.EndsLine [] from Or.inl rfl)
  obtain ⟨es, s', hes, htwin, hrefolded⟩ := exists_replay config s.lines 0 h hsites
  refine ⟨es, s'.reconfigured config es, SessionM.outcome_of_run_ok ?_, ⟨?_, ?_⟩, hrefolded⟩
  · simp only [SessionM.reconfigure, EStateM.run_bind, EStateM.run_get, hes, EStateM.run_modify,
      EStateM.run_pure, reconfigured]
  · rw [htwin.eq_with]
    rfl
  · exact htwin.text_eq

theorem Refolded.made {s : Session} {config : Config} {sites : List Site} {es : List Expression}
    (h : List.Forall₂ (s.Refolded config) sites es) : List.Forall₂ (Made config) sites es :=
  h.imp fun _ _ => made_of_make

theorem Valid.reconfigured {s : Session} (h : s.Valid) {config : Config} {es : List Expression}
    (hes : List.Forall₂ (s.Refolded config) (sitesFrom config 0 s.lines) es) :
    (s.reconfigured config es).Valid :=
  ⟨h.cursor_eq, h.lines_closed, h.tail_open, h.joined_eq, Refolded.made hes⟩

theorem withConfig_of_reconfigure {s next : Session} {config : Config} {es : List Expression}
    (h : s.reconfigure config = .ok (next, es)) : s.withConfig config = .ok next := by
  rw [withConfig, h]
  rfl

/-! ### Folding -/

theorem lt_of_indexAt {s : Session} {position : Int} {i : Nat} (h : s.indexAt position = .ok i) :
    i < s.expressions.length := by
  unfold indexAt at h
  split at h
  · next hi =>
    cases h
    exact (List.findIdx?_eq_some_iff_getElem.mp hi).1
  · cases h

/-- The session with its text at hand and another expression at the index. -/
def withExpression (s : Session) (i : Nat) (e : Expression) : Session :=
  { s with expressions := s.expressions.set i e, joined := some s.text }

/-- A fold at a position that is not found changes nothing at all. -/
theorem run_fold_of_indexAt_error {s : Session} {position : Int} {f : Fault}
    (h : s.indexAt position = .error f) (level : Option Int) :
    (SessionM.fold position level).run s = .error f s := by
  simp [SessionM.fold, SessionM.find, h]

/-- **A fold, step by step.** The text is read and the expression is made again. Only if that goes
well is the expression replaced. -/
theorem run_fold_of_indexAt_ok {s : Session} {position : Int} {i : Nat} {e : Expression}
    (h : s.indexAt position = .ok i) (he : s.expressions[i]? = some e) (level : Option Int) :
    (SessionM.fold position level).run s = match e.remake s.text s.config level with
      | .ok e' => .ok e' (s.withExpression i e')
      | .error f => .error f s.withText := by
  simp only [SessionM.fold, SessionM.find, EStateM.run_bind, EStateM.run_get, SessionM.run_ofExcept,
    h, he, run_remake]
  cases e.remake s.text s.config level <;> rfl

/-- **Folding at a position that is found**: the expression there is made again at the level. -/
theorem Valid.run_fold {s : Session} (h : s.Valid) {position : Int} {i : Nat}
    (hi : s.indexAt position = .ok i) (level : Option Int) :
    ∃ site, s.sites[i]? = some site ∧ (SessionM.fold position level).run s =
      match site.make s.config level with
      | .ok e => .ok e (s.withExpression i e)
      | .error f => .error f s.withText := by
  have hlt := lt_of_indexAt hi
  have hlt' : i < s.sites.length := by rw [h.made.length_eq]; exact hlt
  have hmade := (List.forall₂_iff_get.mp h.made).2 i hlt' hlt
  have hremake := remake_eq (h.standsIn _ (List.getElem_mem hlt')) hmade s.config level
  refine ⟨s.sites[i], List.getElem?_eq_getElem hlt', ?_⟩
  rw [List.get_eq_getElem] at hremake
  rw [run_fold_of_indexAt_ok hi (List.getElem?_eq_getElem hlt), hremake]

theorem forall₂_set {α β : Type} {R : α → β → Prop} {l : List α} {l' : List β} {i : Nat} {a : α}
    {b : β} (h : List.Forall₂ R l l') (ha : l[i]? = some a) (hb : R a b) :
    List.Forall₂ R l (l'.set i b) := by
  induction h generalizing i with
  | nil => exact .nil
  | cons hr ht ih =>
    cases i with
    | zero => cases ha; exact .cons hb ht
    | succ i => exact .cons hr (ih ha)

theorem Valid.withExpression {s : Session} (h : s.Valid) {i : Nat} {site : Site}
    {level : Option Int} {e : Expression} (hsite : s.sites[i]? = some site)
    (he : site.make s.config level = .ok e) : (s.withExpression i e).Valid :=
  ⟨h.cursor_eq, h.lines_closed, h.tail_open, fun _ ht => (Option.some.inj ht) ▸ h.text_eq,
    forall₂_set h.made hsite (made_of_make he)⟩

/-- A fold puts the expression of the site in its place. -/
theorem Valid.fold_of_make {s : Session} (h : s.Valid) {position : Int} {i : Nat} {site : Site}
    {level : Option Int} {e : Expression} (hi : s.indexAt position = .ok i)
    (hsite : s.sites[i]? = some site) (he : site.make s.config level = .ok e) :
    s.fold position level = .ok (s.withExpression i e, e) := by
  obtain ⟨site', hsite', hrun⟩ := h.run_fold hi level
  cases Option.some.inj (hsite.symm.trans hsite')
  rw [he] at hrun
  exact SessionM.outcome_of_run_ok hrun

/-- What a fold gives is the expression of the site around the position, at the level asked for. -/
theorem Valid.exists_of_fold {s next : Session} (h : s.Valid) {position : Int}
    {level : Option Int} {e : Expression} (hfold : s.fold position level = .ok (next, e)) :
    ∃ i site, s.indexAt position = .ok i ∧ s.sites[i]? = some site ∧
      site.make s.config level = .ok e ∧ next = s.withExpression i e := by
  have hrun := SessionM.outcome_eq_ok_iff.mp hfold
  cases hi : s.indexAt position with
  | error f =>
    rw [run_fold_of_indexAt_error hi level] at hrun
    cases hrun
  | ok i =>
    obtain ⟨site, hsite, hrun'⟩ := h.run_fold hi level
    rw [hrun] at hrun'
    cases hmake : site.make s.config level with
    | error f =>
      rw [hmake] at hrun'
      cases hrun'
    | ok e' =>
      rw [hmake] at hrun'
      cases hrun'
      exact ⟨i, site, rfl, hsite, hmake, rfl⟩

theorem Valid.exists_fold {s : Session} (h : s.Valid) {position : Int} {i : Nat}
    (hi : s.indexAt position = .ok i) {level : Option Int} (hl : ∀ n ∈ level, 1 ≤ n) :
    ∃ site e, s.sites[i]? = some site ∧ site.make s.config level = .ok e ∧
      s.fold position level = .ok (s.withExpression i e, e) := by
  obtain ⟨site, hsite, -⟩ := h.run_fold hi level
  have hstands := h.standsIn site (List.mem_of_getElem? hsite)
  obtain ⟨e, he, -⟩ := Expression.exists_make hstands.found_eq site.quote site.column s.config hl
  exact ⟨site, e, hsite, he, h.fold_of_make hi hsite he⟩

/-! ### Every session that can be reached -/

section Serve

variable {s next : Session} {f : Fault}

theorem serve_feed {chunk : Text} {rs : List LineReport} (h : s.feed chunk = .ok (next, rs)) :
    s.serve (.feed chunk) = next := by
  rw [serve, Request.perform, SessionM.left_map, SessionM.left_of_outcome h]

theorem run_find (s : Session) (position : Int) :
    (SessionM.find position).run s = match s.indexAt position with
      | .ok i => .ok i s
      | .error f => .error f s := by
  simp only [SessionM.find, EStateM.run_bind, EStateM.run_get, SessionM.run_ofExcept]
  cases s.indexAt position <;> rfl

theorem serve_find (s : Session) (position : Int) : s.serve (.find position) = s := by
  rw [serve, Request.perform, SessionM.left_map, SessionM.left, run_find]
  cases s.indexAt position <;> rfl

theorem serve_fold {position : Int} {level : Option Int} {e : Expression}
    (h : (SessionM.fold position level).run s = .ok e next) :
    s.serve (.fold position level) = next := by
  rw [serve, Request.perform, SessionM.left_map, SessionM.left_of_run_ok h]

theorem serve_fold_of_error {position : Int} {level : Option Int}
    (h : (SessionM.fold position level).run s = .error f next) :
    s.serve (.fold position level) = next := by
  rw [serve, Request.perform, SessionM.left_map, SessionM.left_of_run_error h]

theorem serve_reconfigure {config : Config} {es : List Expression}
    (h : s.reconfigure config = .ok (next, es)) : s.serve (.reconfigure config) = next := by
  rw [serve, Request.perform, SessionM.left_map, SessionM.left_of_outcome h]

theorem serve_read (s : Session) : s.serve .read = s.withText := by
  rw [serve, Request.perform, SessionM.left_map, SessionM.left_of_run_ok (run_read s)]

end Serve

/-- **What a request leaves behind.** This is all that an invariant of sessions has to be checked
against. -/
inductive Leaves (s : Session) : Request → Session → Prop
  | fed {chunk : Text} {lines tail : List Text} {rs : List LineReport}
      (hs : splitLines (s.tail.flatten ++ chunk) = (lines, tail.flatten))
      (hsites : Emitted s.config (sitesFrom s.config s.cursor lines) (rs.flatMap (·.expressions))) :
      s.Leaves (.feed chunk) (s.extended lines tail rs)
  | found {position : Int} : s.Leaves (.find position) s
  -- a refusal of the position leaves the session, one of the level the session with its text read
  | refused {position : Int} {level : Option Int} {next : Session} (htwin : s.Twin next) :
      s.Leaves (.fold position level) next
  | folded {position : Int} {level : Option Int} {i : Nat} {site : Site} {e : Expression}
      (hsite : s.sites[i]? = some site) (he : site.make s.config level = .ok e) :
      s.Leaves (.fold position level) (s.withExpression i e)
  | reconfigured {config : Config} {es : List Expression} {next : Session}
      (htwin : (s.reconfigured config es).Twin next)
      (hes : List.Forall₂ (s.Refolded config) (sitesFrom config 0 s.lines) es) :
      s.Leaves (.reconfigure config) next
  | reset : s.Leaves .reset s.reset
  | read : s.Leaves .read s.withText

theorem Valid.leaves {s : Session} (h : s.Valid) (request : Request) :
    s.Leaves request (s.serve request) := by
  cases request with
  | feed chunk =>
    obtain ⟨lines, tail, rs, hs, hfeed, -, hsites⟩ := h.exists_feed chunk
    rw [serve_feed hfeed]
    exact .fed hs hsites
  | find position =>
    rw [serve_find]
    exact .found
  | fold position level =>
    cases hi : s.indexAt position with
    | error f =>
      rw [serve_fold_of_error (run_fold_of_indexAt_error hi level)]
      exact .refused (Twin.refl s)
    | ok i =>
      obtain ⟨site, hsite, hrun⟩ := h.run_fold hi level
      cases he : site.make s.config level with
      | error f =>
        rw [he] at hrun
        rw [serve_fold_of_error hrun]
        exact .refused s.twin_withText
      | ok e =>
        rw [he] at hrun
        rw [serve_fold hrun]
        exact .folded hsite he
  | reconfigure config =>
    obtain ⟨es, next, hnext, htwin, hrefolded⟩ := h.exists_reconfigure config
    rw [serve_reconfigure hnext]
    exact .reconfigured htwin hrefolded
  | reset => exact .reset
  | read =>
    rw [serve_read]
    exact .read

theorem Leaves.valid {s next : Session} {request : Request} (hleaves : s.Leaves request next)
    (h : s.Valid) : next.Valid := by
  cases hleaves with
  | fed hs hsites =>
    obtain ⟨-, hlines, htail⟩ := splitLines_spec hs
    exact h.extended hlines htail hsites
  | found => exact h
  | refused htwin => exact h.twin htwin
  | folded hsite he => exact h.withExpression hsite he
  | reconfigured htwin hes => exact (h.reconfigured hes).twin htwin
  | reset => exact valid_new s.config
  | read => exact h.twin s.twin_withText

/-- **Every request keeps a session valid**, also one that is refused. -/
theorem Valid.serve {s : Session} (h : s.Valid) (request : Request) : (s.serve request).Valid :=
  (h.leaves request).valid h

theorem Valid.feed {s next : Session} (h : s.Valid) {chunk : Text} {rs : List LineReport}
    (hfeed : s.feed chunk = .ok (next, rs)) : next.Valid := by
  rw [← serve_feed hfeed]
  exact h.serve _

theorem Valid.after {s : Session} (h : s.Valid) (requests : List Request) :
    (s.after requests).Valid := by
  induction requests generalizing s with
  | nil => exact h
  | cons request requests ih => exact ih (h.serve request)

/-- **Every session that can be reached is valid.** -/
theorem valid_reached (config : Config) (requests : List Request) :
    (reached config requests).Valid := (valid_new config).after requests

end Session

end DiagLayout
