import DiagLayout.Proofs.Replay

/-!
# The target of a fold

A fold is asked for at a position, and means the expression whose quote, marks included, the
position lies in. There is at most one: the quotes of a line stand between marks of their own
(`Quote.marked_all`), and so do those of all lines of a session (`Session.Valid.encloses`).

A fold has one of three ends (`Session.Valid.fold_cases`): no expression is around the position, and
nothing is changed; the level is below one, and the text has been read but nothing else is changed;
or that one expression is replaced. The main result is `fold_has_one_target`.
-/

namespace DiagLayout

/-! ### Quotes between their marks -/

namespace Quote

/-- The marks belong together: two apostrophes, or a left and a right one with no right one between
them. -/
def MarksMatch (o c : Char) (body : Text) : Prop :=
  o = '\'' ∧ c = '\'' ∨ o = '‘' ∧ c = '’' ∧ '’' ∉ body

/-- The quote stands between marks of its own in the text `t`, whose first character is at `pos`. -/
def Marked (pos : Nat) (t : Text) (q : Quote) : Prop :=
  ∃ (u v : Text) (o c : Char), t = u ++ o :: (q.body ++ c :: v) ∧ q.start = pos + u.length + 1 ∧
    q.body ≠ [] ∧ MarksMatch o c q.body

/-- The search for the closing apostrophe stops at one. -/
theorem getElem?_of_closingApostrophe? {before : Char} {t : Text} : ∀ {n : Nat},
    closingApostrophe? before t = some n → t[n]? = some '\'' := by
  fun_induction closingApostrophe? before t with
  | case1 => intro n h; cases h
  | case2 before t n _ ih =>
    intro m h
    obtain ⟨k, hk, rfl⟩ := Option.map_eq_some_iff.mp h
    have hrest := ih hk
    rw [List.getElem?_drop] at hrest
    rw [← Nat.add_assoc, List.getElem?_cons_succ, Nat.add_comm k n]
    exact hrest
  | case3 => intro n h; cases h; rfl
  | case4 before c t _ ih =>
    intro m h
    obtain ⟨k, hk, rfl⟩ := Option.map_eq_some_iff.mp h
    rw [List.getElem?_cons_succ]
    exact ih hk

theorem Marked.of_drop {pos k : Nat} {t : Text} {q : Quote} (hk : k ≤ t.length)
    (h : Marked (pos + k) (t.drop k) q) : Marked pos t q := by
  obtain ⟨u, v, o, c, ht, hstart, hrest⟩ := h
  refine ⟨t.take k ++ u, v, o, c, ?_, ?_, hrest⟩
  · rw [List.append_assoc, ← ht, List.take_append_drop]
  · rw [List.length_append, List.length_take_of_le hk, hstart]
    omega

/-- The text between two marks is a quote between them, unless it is empty. -/
theorem marked_of_mem_ofLength {pos n : Nat} {o c : Char} {t : Text} {q : Quote}
    (hc : t[n]? = some c) (hmatch : MarksMatch o c (t.take n)) (hq : q ∈ ofLength (pos + 1) n t) :
    Marked pos (o :: t) q := by
  obtain ⟨hlt, rfl⟩ := List.getElem?_eq_some_iff.mp hc
  unfold ofLength at hq
  split_ifs at hq with hn
  · cases hq
  · obtain rfl := List.mem_singleton.mp hq
    refine ⟨[], t.drop (n + 1), o, t[n], ?_, rfl, ?_, hmatch⟩
    · simp
    · intro hnil
      have hlength := congrArg List.length hnil
      rw [List.length_take_of_le (Nat.le_of_lt hlt), List.length_nil] at hlength
      exact hn hlength

theorem marked_allFrom (pos : Nat) (before : Option Char) (t : Text) :
    ∀ q ∈ allFrom pos before t, Marked pos t q := by
  fun_induction allFrom pos before t with
  | case1 pos => intro q hq; cases hq
  | case2 => intro q hq; cases hq
  | case3 pos before t n hn ih =>
    intro q hq
    obtain ⟨hlt, hmark, hfirst⟩ := List.findIdx?_eq_some_iff_getElem.mp hn
    rw [beq_iff_eq] at hmark
    have hbody : '’' ∉ t.take n := by
      intro hmem
      obtain ⟨j, hj, heq⟩ := List.getElem_of_mem hmem
      rw [List.length_take_of_le (Nat.le_of_lt hlt)] at hj
      rw [List.getElem_take] at heq
      exact hfirst j hj (beq_iff_eq.mpr heq)
    rcases List.mem_append.mp hq with hq | hq
    · refine marked_of_mem_ofLength (List.getElem?_eq_some_iff.mpr ⟨hlt, hmark⟩) ?_ hq
      exact Or.inr ⟨rfl, rfl, hbody⟩
    · exact .of_drop (k := n + 2) (by rw [List.length_cons]; omega) (ih q hq)
  | case4 pos before c t _ _ _ ih =>
    intro q hq
    exact .of_drop (k := 1) (by simp) (ih q hq)
  | case5 pos before c t _ happ n hn ih =>
    intro q hq
    have hlt := lt_of_closingApostrophe? hn
    rcases List.mem_append.mp hq with hq | hq
    · exact marked_of_mem_ofLength (getElem?_of_closingApostrophe? hn) (Or.inl ⟨happ.1, rfl⟩) hq
    · exact .of_drop (k := n + 2) (by rw [List.length_cons]; omega) (ih q hq)
  | case6 pos before c t _ _ ih =>
    intro q hq
    exact .of_drop (k := 1) (by simp) (ih q hq)

/-- **The quotes of a line stand between marks of their own.** -/
theorem marked_all (line : Text) : ∀ q ∈ all line, q.Marked 0 line := marked_allFrom 0 none line

end Quote

/-! ### Quotes in the text of a session -/

/-- **The text encloses the quote**: it stands between marks of its own, all on one line. -/
def Text.Encloses (t : Text) (quote : Span) : Prop :=
  ∃ (u body v : Text) (o c : Char), t = u ++ o :: (body ++ c :: v) ∧
    quote = ⟨u.length + 1, u.length + 1 + body.length⟩ ∧ body ≠ [] ∧
    Quote.MarksMatch o c body ∧ '\n' ∉ o :: (body ++ [c])

theorem encloses_lineSites {config : Config} {line : Text} (hline : '\n' ∉ line)
    (pre more : Text) : ∀ site ∈ lineSites config pre.length line,
      (pre ++ (line ++ more)).Encloses site.quote := by
  intro site hsite
  unfold lineSites at hsite
  split_ifs at hsite
  · obtain ⟨q, hq, hs⟩ := List.mem_filterMap.mp hsite
    obtain ⟨m, -, rfl⟩ := Option.map_eq_some_iff.mp hs
    obtain ⟨u, v, o, c, rfl, hstart, hne, hmatch⟩ := Quote.marked_all line q hq
    refine ⟨pre ++ u, q.body, v ++ more, o, c, by simp, ?_, hne, hmatch, ?_⟩
    · simp only [Quote.stop, hstart, List.length_append, Span.mk.injEq]
      omega
    · have hsplit : u ++ o :: (q.body ++ c :: v) = u ++ (o :: (q.body ++ [c]) ++ v) := by simp
      rw [hsplit] at hline
      exact fun hmem => hline (List.mem_append_right u (List.mem_append_left v hmem))
  · cases hsite

/-- Every site belongs to one of the lines. -/
theorem exists_line_of_mem_sitesFrom {config : Config} {site : Site} {lines : List Text} :
    ∀ base : Nat, site ∈ sitesFrom config base lines → ∃ front line back,
      lines = front ++ line :: back ∧
        site ∈ lineSites config ((base + (Text.ofLines front).length : Nat) : Int)
          (line.trimEnd '\r') := by
  induction lines with
  | nil => intro base h; cases h
  | cons line lines ih =>
    intro base h
    rw [sitesFrom] at h
    rcases List.mem_append.mp h with h | h
    · exact ⟨[], line, lines, rfl, h⟩
    · have hbase : (base : Int) + line.length + 1 = ((base + line.length + 1 : Nat) : Int) := by
        omega
      rw [hbase] at h
      obtain ⟨front, line', back, rfl, hsite⟩ := ih _ h
      refine ⟨line :: front, line', back, rfl, ?_⟩
      have hoffset : base + (Text.ofLines (line :: front)).length =
          base + line.length + 1 + (Text.ofLines front).length := by
        rw [Text.ofLines_cons, List.length_append, List.length_cons]
        omega
      rw [hoffset]
      exact hsite

namespace Session

/-- **The text of a session encloses the quotes of its expressions.** -/
theorem Valid.encloses {s : Session} (h : s.Valid) {e : Expression} (he : e ∈ s.expressions) :
    s.text.Encloses e.quote := by
  obtain ⟨i, hi, rfl⟩ := List.getElem_of_mem he
  have hi' : i < s.sites.length := by
    rw [h.made.length_eq]
    exact hi
  have hmade := (List.forall₂_iff_get.mp h.made).2 i hi' hi
  have hquote := (Expression.of_make hmade).1
  rw [List.get_eq_getElem, List.get_eq_getElem] at hquote
  obtain ⟨front, line, back, hlines, hsite⟩ :=
    exists_line_of_mem_sitesFrom 0 (List.getElem_mem hi')
  have hline : '\n' ∉ line := h.lines_closed line (by simp [hlines])
  obtain ⟨trimmed, htrim⟩ := Text.trimEnd_isPrefix '\r' line
  have htext : s.text = Text.ofLines front ++
      (line.trimEnd '\r' ++ (trimmed ++ '\n' :: (Text.ofLines back ++ s.tail.flatten))) := by
    rw [h.text_eq, output_eq, hlines, Text.ofLines_append, Text.ofLines_cons,
      ← List.append_assoc (line.trimEnd _), htrim, List.append_assoc, List.append_assoc,
      List.cons_append]
  rw [Nat.zero_add] at hsite
  rw [hquote, htext]
  refine encloses_lineSites (fun hmem => hline ?_) _ _ _ hsite
  rw [← htrim]
  exact List.mem_append_left _ hmem

end Session

/-! ### The ends of a fold -/

/-- The position lies in the quote of the expression or on one of its marks. -/
def Expression.Around (e : Expression) (position : Int) : Prop :=
  e.quote.start - 1 ≤ position ∧ position ≤ e.quote.stop

/-- A level below one is refused, once the quote is recognised. -/
theorem Expression.make_of_level_lt {text : Text} {m : Match}
    (hm : Match.best? (Source.ofText text) = some m) (quote : Span) (column : Nat)
    (config : Config) {n : Int} (hn : n < 1) :
    make text m quote column config (some n) = .error (.foldLevel n) := by
  obtain ⟨regions, -, hregions, -⟩ := Match.exists_fold hm
    (show ∀ k ∈ (none : Option Int), 1 ≤ k by simp) config.placeholder
  have hfold : DiagLayout.fold regions (some n) config.placeholder = .error (.foldLevel n) := by
    rw [DiagLayout.fold, if_pos hn]
  simp only [make, hregions, hfold, bind, Except.bind]

namespace Session

theorem covers_iff {position : Int} {e : Expression} :
    covers position e = true ↔ e.Around position := by
  simp [covers, Expression.Around]

/-- Where no expression is around the position nothing can be folded, and nothing is changed. -/
theorem run_fold_of_forall_not {s : Session} {position : Int}
    (h : ∀ e ∈ s.expressions, ¬ e.Around position) (level : Option Int) :
    (SessionM.fold position level).run s = .error (.notFoldable (refusal position)) s := by
  have hnone : s.expressions.findIdx? (covers position) = none := by
    refine List.findIdx?_eq_none_iff.mpr fun e he => Bool.eq_false_iff.mpr fun hcovers => ?_
    exact h e he (covers_iff.mp hcovers)
  refine run_fold_of_indexAt_error ?_ level
  rw [indexAt, hnone]

section Found

variable {s : Session} (h : s.Valid) {position : Int} {i : Nat} {e : Expression}
  (he : s.expressions[i]? = some e) (haround : e.Around position)
include h he haround

/-- Around a position there is one expression. -/
theorem Valid.eq_of_around {j : Nat} {e' : Expression} (he' : s.expressions[j]? = some e')
    (haround' : e'.Around position) : j = i := by
  have hi := h.indexAt_of_covers he (covers_iff.mpr haround)
  rw [h.indexAt_of_covers he' (covers_iff.mpr haround')] at hi
  exact Except.ok.inj hi

/-- A level below one is refused after the text has been read. -/
theorem Valid.run_fold_of_level_lt {n : Int} (hn : n < 1) :
    (SessionM.fold position (some n)).run s = .error (.foldLevel n) s.withText := by
  obtain ⟨site, hsite, hrun⟩ :=
    h.run_fold (h.indexAt_of_covers he (covers_iff.mpr haround)) (some n)
  have hstands := h.standsIn site (List.mem_of_getElem? hsite)
  have hmake : site.make s.config (some n) = .error (.foldLevel n) :=
    Expression.make_of_level_lt hstands.found_eq _ _ _ hn
  rw [hrun, hmake]

/-- The expression is made again, and nothing else is touched. -/
theorem Valid.exists_fold_around {level : Option Int} (hl : ∀ n ∈ level, 1 ≤ n) : ∃ e',
    s.fold position level = .ok (s.withExpression i e', e') ∧
      e'.quote = e.quote ∧ e'.found = e.found ∧ e'.column = e.column ∧ e'.fold.level = level := by
  obtain ⟨site, e', hsite, he', hfold⟩ :=
    h.exists_fold (h.indexAt_of_covers he (covers_iff.mpr haround)) hl
  refine ⟨e', hfold, ?_⟩
  obtain ⟨hlt, rfl⟩ := List.getElem?_eq_some_iff.mp hsite
  obtain ⟨hlt', rfl⟩ := List.getElem?_eq_some_iff.mp he
  have hmade := (List.forall₂_iff_get.mp h.made).2 i hlt hlt'
  obtain ⟨hquote, hfound, hcolumn, -, -⟩ := Expression.of_make hmade
  obtain ⟨hquote', hfound', hcolumn', hlevel', -⟩ := Expression.of_make he'
  rw [List.get_eq_getElem, List.get_eq_getElem] at hquote hfound hcolumn
  exact ⟨hquote'.trans hquote.symm, hfound'.trans hfound.symm, hcolumn'.trans hcolumn.symm, hlevel'⟩

end Found

/-- **The ends of a fold**, with what each leaves behind. -/
theorem Valid.fold_cases {s : Session} (h : s.Valid) (position : Int) (level : Option Int) :
    ((∀ e ∈ s.expressions, ¬ e.Around position) ∧
      (SessionM.fold position level).run s = .error (.notFoldable (refusal position)) s) ∨
    ∃ (i : Nat) (e : Expression), s.expressions[i]? = some e ∧ e.Around position ∧
      ((∃ n, level = some n ∧ n < 1 ∧
        (SessionM.fold position level).run s = .error (.foldLevel n) s.withText) ∨
      ((∀ n ∈ level, 1 ≤ n) ∧ ∃ e',
        (SessionM.fold position level).run s = .ok e' (s.withExpression i e'))) := by
  by_cases haround : ∃ e ∈ s.expressions, e.Around position
  · obtain ⟨e, hmem, haround⟩ := haround
    obtain ⟨i, he⟩ := List.mem_iff_getElem?.mp hmem
    refine Or.inr ⟨i, e, he, haround, ?_⟩
    by_cases hl : ∀ n ∈ level, 1 ≤ n
    · obtain ⟨e', hfold, -⟩ := h.exists_fold_around he haround hl
      exact Or.inr ⟨hl, e', SessionM.outcome_eq_ok_iff.mp hfold⟩
    · obtain ⟨n, hn⟩ := not_forall.mp hl
      obtain ⟨rfl, hlt⟩ := Classical.not_imp.mp hn
      rw [Int.not_le] at hlt
      exact Or.inl ⟨n, rfl, hlt, h.run_fold_of_level_lt he haround hlt⟩
  · have hnone : ∀ e ∈ s.expressions, ¬ e.Around position :=
      fun e he hin => haround ⟨e, he, hin⟩
    exact Or.inl ⟨hnone, run_fold_of_forall_not hnone level⟩

theorem Valid.fold_notFoldable_iff {s : Session} (h : s.Valid) {position : Int}
    {level : Option Int} : (∃ r, s.fold position level = .error (.notFoldable r)) ↔
      ∀ e ∈ s.expressions, ¬ e.Around position := by
  constructor
  · rintro ⟨r, hrefused⟩
    rcases h.fold_cases position level with
      ⟨hnone, -⟩ | ⟨i, e, -, -, ⟨n, -, -, hrun⟩ | ⟨-, e', hrun⟩⟩
    · exact hnone
    · cases (SessionM.outcome_of_run_error hrun).symm.trans hrefused
    · cases (SessionM.outcome_of_run_ok hrun).symm.trans hrefused
  · intro hnone
    exact ⟨_, SessionM.outcome_of_run_error (run_fold_of_forall_not hnone level)⟩

theorem Valid.fold_foldLevel_iff {s : Session} (h : s.Valid) {position : Int}
    {level : Option Int} : (∃ n, s.fold position level = .error (.foldLevel n)) ↔
      (∃ e ∈ s.expressions, e.Around position) ∧ ∃ n, level = some n ∧ n < 1 := by
  constructor
  · rintro ⟨n, hrefused⟩
    rcases h.fold_cases position level with
      ⟨-, hrun⟩ | ⟨i, e, he, haround, ⟨n', hlevel, hlt, -⟩ | ⟨-, e', hrun⟩⟩
    · cases (SessionM.outcome_of_run_error hrun).symm.trans hrefused
    · exact ⟨⟨e, List.mem_of_getElem? he, haround⟩, n', hlevel, hlt⟩
    · cases (SessionM.outcome_of_run_ok hrun).symm.trans hrefused
  · rintro ⟨⟨e, hmem, haround⟩, n, rfl, hlt⟩
    obtain ⟨i, he⟩ := List.mem_iff_getElem?.mp hmem
    exact ⟨n, SessionM.outcome_of_run_error (h.run_fold_of_level_lt he haround hlt)⟩

/-- **A fold that is refused** is so for its position or for its level, and changes nothing but that
the text may be at hand after it. -/
theorem Valid.fold_refused {s : Session} (h : s.Valid) {position : Int} {level : Option Int}
    {f : Fault} (hrefused : s.fold position level = .error f) :
    s.Twin (s.serve (.fold position level)) ∧
      ((∃ r, f = .notFoldable r) ∨ ∃ n, f = .foldLevel n) := by
  rcases h.fold_cases position level with
    ⟨-, hrun⟩ | ⟨i, e, -, -, ⟨n, -, -, hrun⟩ | ⟨-, e', hrun⟩⟩
  · have hf := Except.error.inj (hrefused.symm.trans (SessionM.outcome_of_run_error hrun))
    rw [serve_fold_of_error hrun]
    exact ⟨Twin.refl s, Or.inl ⟨_, hf⟩⟩
  · have hf := Except.error.inj (hrefused.symm.trans (SessionM.outcome_of_run_error hrun))
    rw [serve_fold_of_error hrun]
    exact ⟨s.twin_withText, Or.inr ⟨n, hf⟩⟩
  · cases (SessionM.outcome_of_run_ok hrun).symm.trans hrefused

end Session

/-- **A fold has one target and is atomic.** In every session that can be reached the quotes of the
expressions lie apart, marks included, and the text encloses each of them in marks of its own. A
fold is refused for its position iff no expression is around it, else for its level iff that is
below one, and for nothing else; it then leaves behind the session as it was, but that its text may
be at hand. Otherwise there is one expression around the position, and the fold replaces it and
nothing else. -/
theorem fold_has_one_target (config : Config) (requests : List Request) :
    let s := Session.reached config requests
    (s.expressions.Pairwise fun e e' => e.quote.stop < e'.quote.start - 1) ∧
    (∀ e ∈ s.expressions, s.text.Encloses e.quote) ∧
    ∀ (position : Int) (level : Option Int),
      let left := s.serve (.fold position level)
      ((∃ r, s.fold position level = .error (.notFoldable r)) ↔
        ∀ e ∈ s.expressions, ¬ e.Around position) ∧
      ((∃ n, s.fold position level = .error (.foldLevel n)) ↔
        (∃ e ∈ s.expressions, e.Around position) ∧ ∃ n, level = some n ∧ n < 1) ∧
      (∀ f, s.fold position level = .error f → s.Twin left ∧
        ((∃ r, f = .notFoldable r) ∨ ∃ n, f = .foldLevel n)) ∧
      ∀ (i : Nat) (e : Expression), s.expressions[i]? = some e → e.Around position →
        (∀ j e', s.expressions[j]? = some e' → e'.Around position → j = i) ∧
        ((∀ n ∈ level, 1 ≤ n) → ∃ e', s.fold position level = .ok (left, e') ∧
          left = { s with expressions := s.expressions.set i e', joined := some s.text } ∧
          e'.quote = e.quote ∧ e'.found = e.found ∧ e'.column = e.column ∧
          e'.fold.level = level) := by
  intro s
  have h : s.Valid := Session.valid_reached config requests
  refine ⟨h.expressions_apart.imp fun hlt => by omega, fun e he => h.encloses he,
    fun position level => ?_⟩
  intro left
  refine ⟨h.fold_notFoldable_iff, h.fold_foldLevel_iff, fun f hfold => h.fold_refused hfold,
    fun i e he haround => ⟨fun j e' he' haround' => h.eq_of_around he haround he' haround',
      fun hl => ?_⟩⟩
  obtain ⟨e', hfold, hrest⟩ := h.exists_fold_around he haround hl
  have hleft : left = s.withExpression i e' :=
    Session.serve_fold (SessionM.outcome_eq_ok_iff.mp hfold)
  exact ⟨e', hleft ▸ hfold, hleft, hrest⟩

/-- Two quotes on one line in marks of both kinds: a fold at the closing mark of the second is one
of that quote only, at level zero it changes no expression, and between the quotes it is refused. -/
theorem fold_has_one_target_marks :
    let s := Session.reached { width := 10 }
      [.feed "a.c:1:2: error: bad 'v<i>' and ‘w<j>’\n".toList]
    ∃ e e', s.expressions[1]? = some e ∧ e.Around 36 ∧ s.text.Encloses e.quote ∧
      s.fold 36 (some 1) = .ok (s.serve (.fold 36 (some 1)), e') ∧
      (s.serve (.fold 36 (some 1))).expressions = s.expressions.set 1 e' ∧
      e'.fold.level = some 1 ∧ s.Twin (s.serve (.fold 36 (some 0))) ∧
      ∃ r, s.fold 28 none = .error (.notFoldable r) := by
  intro s
  obtain ⟨-, hencloses, hfold⟩ := fold_has_one_target { width := 10 }
    [.feed "a.c:1:2: error: bad 'v<i>' and ‘w<j>’\n".toList]
  have hquotes : s.expressions.map (·.quote) = [⟨21, 25⟩, ⟨32, 36⟩] := by decide +kernel
  obtain ⟨e, he, hquote⟩ : ∃ e, s.expressions[1]? = some e ∧ e.quote = ⟨32, 36⟩ := by
    rw [← Option.map_eq_some_iff, ← List.getElem?_map, hquotes]
    rfl
  have hmem := List.mem_of_getElem? he
  have haround : e.Around 36 := by
    rw [Expression.Around, hquote]
    decide
  have hbetween : ∀ e' ∈ s.expressions, ¬ e'.Around 28 := by
    intro e' he'
    have hquote' := List.mem_map_of_mem (f := (·.quote)) he'
    rw [hquotes, List.mem_pair] at hquote'
    rcases hquote' with hquote' | hquote' <;> rw [Expression.Around, hquote'] <;> decide
  obtain ⟨n, hzero⟩ := (hfold 36 (some 0)).2.1.mpr ⟨⟨e, hmem, haround⟩, 0, rfl, by decide⟩
  obtain ⟨e', hone, hleft, -, -, -, hlevel⟩ :=
    ((hfold 36 (some 1)).2.2.2 1 e he haround).2 (by simp)
  exact ⟨e, e', he, haround, hencloses e hmem, hone, congrArg Session.expressions hleft, hlevel,
    ((hfold 36 (some 0)).2.2.1 _ hzero).1, (hfold 28 none).1.mpr hbetween⟩

end DiagLayout
