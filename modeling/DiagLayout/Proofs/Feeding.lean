import DiagLayout.Proofs.Sessions

/-!
# Output in pieces

The text of a session is the output fed since the last reset (`Session.text_reached`), the cursor
stands behind its last line feed (`Session.Valid.pastLastFeed`), and a piece of output gives the
reports of the lines whose line feeds it brings (`Session.Valid.feed_reports`).

How the tail is cut into pieces, and whether the text is at hand, can be told from no answer: two
sessions that differ in nothing else are the `Session.Same`, give the same answers and go on being
the same (`Session.Valid.answers_same`). So it does not matter how the output is
cut into pieces: `chunking_invisible`.
-/

namespace DiagLayout

/-- The output fed since the last reset, where `fed` was fed before the request. -/
def Request.fedOn (fed : Text) : Request → Text
  | .feed chunk => fed ++ chunk
  | .reset => []
  | _ => fed

/-- The output that requests have fed since the last reset. -/
def Request.fed (requests : List Request) : Text := requests.foldl Request.fedOn []

/-- The position is just behind the last line feed of the text, or zero if the text has none. -/
def Text.PastLastFeed (t : Text) (c : Nat) : Prop :=
  (c = 0 ∨ ∃ k, c = k + 1 ∧ t[k]? = some '\n') ∧ '\n' ∉ t.drop c

namespace Session

/-! ### The text and the cursor -/

theorem Valid.text_extended {s : Session} (h : s.Valid) {chunk : Text} {lines tail : List Text}
    (hs : splitLines (s.tail.flatten ++ chunk) = (lines, tail.flatten)) (rs : List LineReport) :
    (s.extended lines tail rs).text = s.text ++ chunk := by
  rw [h.text_eq, output_eq, List.append_assoc, (splitLines_spec hs).1, ← List.append_assoc,
    ← Text.ofLines_append]
  rfl

theorem Leaves.text_eq {s next : Session} {request : Request} (hleaves : s.Leaves request next)
    (h : s.Valid) : next.text = request.fedOn s.text := by
  cases hleaves with
  | fed hs hsites => exact h.text_extended hs _
  | found => rfl
  | refused htwin => exact htwin.text_eq
  | folded hsite he => rfl
  | reconfigured htwin hes => exact htwin.text_eq
  | reset => rfl
  | read => rfl

theorem Valid.text_after {s : Session} (h : s.Valid) (requests : List Request) :
    (s.after requests).text = requests.foldl Request.fedOn s.text := by
  induction requests generalizing s with
  | nil => rfl
  | cons request requests ih =>
    rw [List.foldl_cons, ← (h.leaves request).text_eq h]
    exact ih (h.serve request)

/-- **The text of a session** is the output fed since the last reset. -/
theorem text_reached (config : Config) (requests : List Request) :
    (reached config requests).text = Request.fed requests :=
  (valid_new config).text_after requests

/-- **The cursor** stands just behind the last line feed. -/
theorem Valid.pastLastFeed {s : Session} (h : s.Valid) :
    ∃ c : Nat, s.cursor = c ∧ s.text.PastLastFeed c := by
  rw [h.text_eq, output_eq]
  refine ⟨_, h.cursor_eq, ?_, ?_⟩
  · rcases Text.endsLine_ofLines s.lines with hnil | ⟨u, hu⟩
    · exact Or.inl (by rw [hnil]; rfl)
    · refine Or.inr ⟨u.length, by rw [hu]; simp, ?_⟩
      rw [hu]
      simp
  · rw [List.drop_left]
    exact h.tail_open

/-! ### The reports of a piece -/

/-- The lines that a piece completes are those whose line feeds it brings. -/
theorem Valid.feed_reports {s : Session} (h : s.Valid) {chunk rest : Text} {lines : List Text}
    (hs : splitLines (s.tail.flatten ++ chunk) = (lines, rest)) :
    Text.mapLines (report s.config) (Text.ofLines s.lines).length lines =
      ((s.text ++ chunk).lineEnds s.text.length chunk.length).map fun p =>
        report s.config ((s.text ++ chunk).lineTo p) ((s.text ++ chunk).lineStart p) := by
  obtain ⟨hsplit, hlines, hrest⟩ := splitLines_spec hs
  have hmap := Text.map_lineEnds (report s.config) hlines hrest (Text.endsLine_ofLines s.lines)
  -- the tail brings no line feed, so the line feeds behind the cursor are those of the piece
  rw [← hsplit, List.length_append, Text.lineEnds_add, Text.lineEnds_eq_nil _ h.tail_open,
    List.nil_append, ← List.length_append, ← List.append_assoc, ← output_eq, ← h.text_eq] at hmap
  exact hmap.symm

/-! ### Sessions that go on alike -/

/-- **Sessions that are alike**: they have the same settings and the same output. Their expressions
may differ, as may how the tail is cut into pieces and whether the text is at hand. -/
structure Alike (s s' : Session) : Prop where
  config_eq : s'.config = s.config
  cursor_eq : s'.cursor = s.cursor
  lines_eq : s'.lines = s.lines
  text_eq : s'.text = s.text

theorem Alike.tail_eq {s s' : Session} (halike : s.Alike s') (h : s.Valid) (h' : s'.Valid) :
    s'.tail.flatten = s.tail.flatten := by
  have htext := halike.text_eq
  rw [h.text_eq, h'.text_eq, output_eq, output_eq, halike.lines_eq] at htext
  exact List.append_cancel_left htext

/-- **A piece completes the same lines** in sessions that are alike, and adds the same expressions
to both. -/
theorem Valid.feed_alike {s s' : Session} (h : s.Valid) (h' : s'.Valid) (halike : s.Alike s')
    (chunk : Text) : ∃ next next' rs,
      s.feed chunk = .ok (next, rs) ∧ s'.feed chunk = .ok (next', rs) ∧ next.Alike next' ∧
      next.expressions = s.expressions ++ rs.flatMap (·.expressions) ∧
      next'.expressions = s'.expressions ++ rs.flatMap (·.expressions) := by
  obtain ⟨lines, tail, rs, hs, hfeed, hmap, -⟩ := h.exists_feed chunk
  obtain ⟨lines', tail', rs', hs', hfeed', hmap', -⟩ := h'.exists_feed chunk
  have htext := h'.text_extended hs' rs'
  rw [halike.text_eq, ← h.text_extended hs rs] at htext
  rw [halike.tail_eq h h', hs] at hs'
  obtain ⟨rfl, -⟩ := Prod.mk.inj hs'
  rw [halike.lines_eq, halike.config_eq] at hmap'
  obtain rfl : rs = rs' := eq_of_map_ok (hmap.trans hmap'.symm)
  refine ⟨_, _, rs, hfeed, hfeed', ⟨halike.config_eq, ?_, ?_, htext⟩, rfl, rfl⟩
  · exact congrArg (· + _) halike.cursor_eq
  · exact congrArg (· ++ _) halike.lines_eq

/-! ### Sessions that cannot be told apart -/

/-- **Sessions that are the same** but for how the tail is cut into pieces and whether the text is
at hand. -/
structure Same (s s' : Session) : Prop extends Alike s s' where
  expressions_eq : s'.expressions = s.expressions

namespace Same

variable {s s' s'' : Session}

theorem symm (h : s.Same s') : s'.Same s :=
  ⟨⟨h.config_eq.symm, h.cursor_eq.symm, h.lines_eq.symm, h.text_eq.symm⟩, h.expressions_eq.symm⟩

theorem trans (h : s.Same s') (h' : s'.Same s'') : s.Same s'' :=
  ⟨⟨h'.config_eq.trans h.config_eq, h'.cursor_eq.trans h.cursor_eq, h'.lines_eq.trans h.lines_eq,
    h'.text_eq.trans h.text_eq⟩, h'.expressions_eq.trans h.expressions_eq⟩

theorem indexAt_eq (hsame : s.Same s') (position : Int) :
    s'.indexAt position = s.indexAt position := by
  unfold indexAt
  rw [hsame.expressions_eq]

theorem refolded_eq (hsame : s.Same s') (config : Config) :
    s'.Refolded config = s.Refolded config := by
  unfold Refolded levelOf
  rw [hsame.expressions_eq]

theorem withText (h : s.Same s') : s.withText.Same s'.withText :=
  ⟨⟨h.config_eq, h.cursor_eq, h.lines_eq, h.text_eq⟩, h.expressions_eq⟩

end Same

theorem Twin.same {s s' : Session} (h : s.Twin s') : s.Same s' := by
  refine ⟨⟨?_, ?_, ?_, h.text_eq⟩, ?_⟩
  all_goals rw [h.eq_with]

section Answers

variable {s s' : Session} (h : s.Valid) (h' : s'.Valid) (hsame : s.Same s')
include h h' hsame

theorem Valid.feed_same (chunk : Text) : ∃ next next' rs, s.feed chunk = .ok (next, rs) ∧
    s'.feed chunk = .ok (next', rs) ∧ next.Same next' := by
  obtain ⟨next, next', rs, hfeed, hfeed', halike, hes, hes'⟩ := h.feed_alike h' hsame.toAlike chunk
  exact ⟨next, next', rs, hfeed, hfeed', halike, by rw [hes, hes', hsame.expressions_eq]⟩

/-- Other settings lay out the same lines at the same levels. -/
theorem Valid.reconfigure_same (config : Config) : ∃ next next' es,
    s.reconfigure config = .ok (next, es) ∧ s'.reconfigure config = .ok (next', es) ∧
      next.Same next' := by
  obtain ⟨es, next, hnext, htwin, hes⟩ := h.exists_reconfigure config
  obtain ⟨es', next', hnext', htwin', hes'⟩ := h'.exists_reconfigure config
  rw [hsame.refolded_eq, hsame.lines_eq] at hes'
  obtain rfl : es = es' := List.right_unique_forall₂' (rightUnique_refolded s config) hes hes'
  have hboth : (s.reconfigured config es).Same (s'.reconfigured config es) :=
    ⟨⟨rfl, hsame.cursor_eq, hsame.lines_eq, hsame.text_eq⟩, rfl⟩
  exact ⟨next, next', es, hnext, hnext', htwin.same.symm.trans (hboth.trans htwin'.same)⟩

omit h h' in
/-- A fold has the same end in both. -/
theorem Same.fold (position : Int) (level : Option Int) :
    (∃ next next' e, (SessionM.fold position level).run s = .ok e next ∧
      (SessionM.fold position level).run s' = .ok e next' ∧ next.Same next') ∨
    ∃ next next' f, (SessionM.fold position level).run s = .error f next ∧
      (SessionM.fold position level).run s' = .error f next' ∧ next.Same next' := by
  have hindex := hsame.indexAt_eq position
  cases hi : s.indexAt position with
  | error f =>
    rw [hi] at hindex
    exact Or.inr ⟨s, s', f, run_fold_of_indexAt_error hi level,
      run_fold_of_indexAt_error hindex level, hsame⟩
  | ok i =>
    rw [hi] at hindex
    obtain ⟨e₀, he⟩ : ∃ e₀, s.expressions[i]? = some e₀ :=
      ⟨_, List.getElem?_eq_getElem (lt_of_indexAt hi)⟩
    have he' : s'.expressions[i]? = some e₀ := by rw [hsame.expressions_eq, he]
    have hrun := run_fold_of_indexAt_ok hi he level
    have hrun' := run_fold_of_indexAt_ok hindex he' level
    rw [hsame.text_eq, hsame.config_eq] at hrun'
    cases hmake : e₀.remake s.text s.config level with
    | error f =>
      rw [hmake] at hrun hrun'
      exact Or.inr ⟨_, _, f, hrun, hrun', hsame.withText⟩
    | ok e =>
      rw [hmake] at hrun hrun'
      exact Or.inl ⟨_, _, e, hrun, hrun', ⟨hsame.config_eq, hsame.cursor_eq, hsame.lines_eq,
        hsame.text_eq⟩, congrArg (·.set i e) hsame.expressions_eq⟩

end Answers

theorem answer_read (s : Session) : s.answer .read = .ok (.text s.text) := by
  rw [answer, Request.perform, SessionM.outcome_map, SessionM.outcome_of_run_ok (run_read s)]
  rfl

/-- **A request is answered alike by sessions that are the same**, and leaves them the same. -/
theorem Valid.serve_same {s s' : Session} (h : s.Valid) (h' : s'.Valid) (hsame : s.Same s')
    (request : Request) :
    s'.answer request = s.answer request ∧ (s.serve request).Same (s'.serve request) := by
  unfold answer
  cases request with
  | feed chunk =>
    obtain ⟨next, next', rs, hfeed, hfeed', hnext⟩ := h.feed_same h' hsame chunk
    rw [serve_feed hfeed, serve_feed hfeed', Request.perform, SessionM.outcome_map,
      SessionM.outcome_map, show (SessionM.feed chunk).outcome s = _ from hfeed,
      show (SessionM.feed chunk).outcome s' = _ from hfeed']
    exact ⟨rfl, hnext⟩
  | find position =>
    rw [serve_find, serve_find, Request.perform, SessionM.outcome_map, SessionM.outcome_map]
    unfold SessionM.outcome
    rw [run_find, run_find, hsame.indexAt_eq]
    refine ⟨?_, hsame⟩
    cases s.indexAt position <;> rfl
  | fold position level =>
    rw [Request.perform, SessionM.outcome_map, SessionM.outcome_map]
    rcases hsame.fold position level with
      ⟨next, next', e, hrun, hrun', hnext⟩ | ⟨next, next', f, hrun, hrun', hnext⟩
    · rw [serve_fold hrun, serve_fold hrun', SessionM.outcome_of_run_ok hrun,
        SessionM.outcome_of_run_ok hrun']
      exact ⟨rfl, hnext⟩
    · rw [serve_fold_of_error hrun, serve_fold_of_error hrun', SessionM.outcome_of_run_error hrun,
        SessionM.outcome_of_run_error hrun']
      exact ⟨rfl, hnext⟩
  | reconfigure config =>
    obtain ⟨next, next', es, hrun, hrun', hnext⟩ := h.reconfigure_same h' hsame config
    rw [serve_reconfigure hrun, serve_reconfigure hrun', Request.perform, SessionM.outcome_map,
      SessionM.outcome_map, show (SessionM.reconfigure config).outcome s = _ from hrun,
      show (SessionM.reconfigure config).outcome s' = _ from hrun']
    exact ⟨rfl, hnext⟩
  | reset =>
    exact ⟨rfl, ⟨hsame.config_eq, rfl, rfl, rfl⟩, rfl⟩
  | read =>
    rw [serve_read, serve_read]
    refine ⟨?_, hsame.withText⟩
    exact (answer_read s').trans (hsame.text_eq ▸ (answer_read s).symm)

/-- **Sessions that are the same cannot be told apart**: they give the same answers to all requests,
and are the same after them. -/
theorem Valid.answers_same {s s' : Session} (h : s.Valid) (h' : s'.Valid) (hsame : s.Same s')
    (requests : List Request) :
    s'.answers requests = s.answers requests ∧ (s.after requests).Same (s'.after requests) := by
  induction requests generalizing s s' with
  | nil => exact ⟨rfl, hsame⟩
  | cons request requests ih =>
    obtain ⟨hanswer, hnext⟩ := h.serve_same h' hsame request
    obtain ⟨hanswers, hlast⟩ := ih (h.serve request) (h'.serve request) hnext
    refine ⟨?_, hlast⟩
    rw [answers, answers, hanswer, hanswers]

/-! ### Two pieces in a row -/

theorem splitLines_append {t t' rest rest' : Text} {lines lines' : List Text}
    (h : splitLines t = (lines, rest)) (h' : splitLines (rest ++ t') = (lines', rest')) :
    splitLines (t ++ t') = (lines ++ lines', rest') := by
  obtain ⟨ht, hlines, -⟩ := splitLines_spec h
  obtain ⟨ht', hlines', hrest'⟩ := splitLines_spec h'
  rw [ht, List.append_assoc, ht', ← List.append_assoc, ← Text.ofLines_append]
  refine splitLines_ofLines (fun line hmem => ?_) hrest'
  rcases List.mem_append.mp hmem with hmem | hmem
  · exact hlines line hmem
  · exact hlines' line hmem

/-- **Two pieces are one**: the second goes on where the first stopped. -/
theorem Valid.feed_append {s : Session} (h : s.Valid) {a b : Text} {next last : Session}
    {rs rs' : List LineReport} (ha : s.feed a = .ok (next, rs))
    (hb : next.feed b = .ok (last, rs')) :
    ∃ both, s.feed (a ++ b) = .ok (both, rs ++ rs') ∧ both.Same last := by
  obtain ⟨lines, tail, rsa, hs, hfeed, hmap, hsites⟩ := h.exists_feed a
  obtain ⟨-, hlines, htail⟩ := splitLines_spec hs
  rw [ha] at hfeed
  cases hfeed
  have hnext := h.extended hlines htail hsites
  obtain ⟨lines', tail', rsb, hs', hfeed', hmap', -⟩ := hnext.exists_feed b
  rw [hb] at hfeed'
  cases hfeed'
  obtain ⟨lines'', tail'', rsc, hs'', hfeed'', hmap'', -⟩ := h.exists_feed (a ++ b)
  have htext := h.text_extended hs'' rsc
  rw [← List.append_assoc, ← h.text_extended hs rs, ← hnext.text_extended hs' rs'] at htext
  rw [← List.append_assoc, splitLines_append hs hs'] at hs''
  obtain ⟨rfl, -⟩ := Prod.mk.inj hs''
  have hreports : rsc = rs ++ rs' := by
    refine eq_of_map_ok ?_
    rw [hmap'', List.map_append, hmap, hmap', Text.mapLines_append]
    simp [Session.extended, advanced]
  subst hreports
  refine ⟨_, hfeed'', ⟨rfl, ?_, ?_, htext.symm⟩, ?_⟩
  · simp [Session.extended, advanced, Int.add_assoc]
  · simp [Session.extended, advanced]
  · simp [Session.extended, advanced]

end Session

/-- **Chunking is invisible.** The text of a session is the output fed since the last reset; so it
is also where it is at hand, and this is what a look at the text gives. The cursor is just behind
the last line feed. A piece of output gives, once and in order, the report of each line whose line
feed it brings, at the offset where that line starts; the cursor does not move back. And two pieces
give the reports that both in one give, and leave a session with the same text, cursor and
expressions, which answers all later requests in the same way. -/
theorem chunking_invisible (config : Config) (requests : List Request) :
    let s := Session.reached config requests
    let fed := Request.fed requests
    s.text = fed ∧ (∀ t ∈ s.joined, t = fed) ∧ s.answer .read = .ok (.text fed) ∧
    (∃ c : Nat, s.cursor = c ∧ fed.PastLastFeed c) ∧
    ∀ a : Text, ∃ next rs, s.feed a = .ok (next, rs) ∧
      rs.map Except.ok = ((fed ++ a).lineEnds fed.length a.length).map
        (fun p => examineLine (((fed ++ a).lineTo p).trimEnd '\r') ((fed ++ a).lineStart p)
          s.config) ∧
      next.text = fed ++ a ∧ s.cursor ≤ next.cursor ∧
      ∀ b : Text, ∃ last both rs', next.feed b = .ok (last, rs') ∧
        s.feed (a ++ b) = .ok (both, rs ++ rs') ∧
        last.text = both.text ∧ last.cursor = both.cursor ∧
        last.expressions = both.expressions ∧
        ∀ later : List Request, last.answers later = both.answers later ∧
          (both.after later).Same (last.after later) := by
  intro s fed
  have h : s.Valid := Session.valid_reached config requests
  have htext : s.text = fed := Session.text_reached config requests
  refine ⟨htext, fun t ht => ?_, ?_, by rw [← htext]; exact h.pastLastFeed, fun a => ?_⟩
  · rw [h.joined_eq t ht, ← h.text_eq, htext]
  · rw [← htext]
    exact Session.answer_read s
  obtain ⟨lines, tail, rs, hs, hfeed, hmap, hsites⟩ := h.exists_feed a
  obtain ⟨-, hlines, htail⟩ := splitLines_spec hs
  have hnext := h.extended hlines htail hsites
  refine ⟨_, rs, hfeed, ?_, ?_, ?_, fun b => ?_⟩
  · rw [hmap, h.feed_reports hs, htext]
    rfl
  · rw [h.text_extended hs, htext]
  · simp only [Session.extended, Session.advanced]
    omega
  · obtain ⟨lines', tail', rs', -, hfeed', -⟩ := hnext.exists_feed b
    obtain ⟨both, hboth, hsame⟩ := h.feed_append hfeed hfeed'
    exact ⟨_, both, rs', hfeed', hboth, hsame.text_eq, hsame.cursor_eq, hsame.expressions_eq,
      (h.feed hboth).answers_same (hnext.feed hfeed') hsame⟩

end DiagLayout
