import DiagLayout.Command
import DiagLayout.Proofs.FoldTargets
import DiagLayout.Proofs.InstructionSites
import DiagLayout.Proofs.Narrowing

/-!
# The inputs of a command

A command lays out each input in a session of its own and folds the expressions one after the other,
each by the position of its quote, while the list it walks over is that of the session before the
first fold. That works because the position always finds the expression that it was taken from
(`Session.Valid.exists_fold_start`), and a fold touches no other: in the end every expression is
what a fold of it alone would have made of it (`Command.exists_foldAll`).

So a level of at least one is never refused, and a level below one is refused at the first input
that has an expression. The output of a command is the outputs of its inputs alone, one behind the
other. The main result is `inputs_are_folded_apart`.
-/

namespace DiagLayout

namespace Session

/-! ### Folding every expression -/

/-- **What a fold of the expression `e` alone makes of it**: the same expression at the level. -/
structure FoldedTo (s : Session) (level : Option Int) (e e' : Expression) : Prop where
  level_eq : e'.fold.level = level
  outline_eq : e'.outline = e.outline
  fold_eq : ∃ folded, s.fold e.quote.start level = .ok (folded, e')

variable {s : Session}

/-- The start of its quote finds an expression, wherever it stands in the list. -/
theorem Valid.exists_fold_start (h : s.Valid) {i : Nat} {e : Expression}
    (he : s.expressions[i]? = some e) {level : Option Int} (hl : ∀ n ∈ level, 1 ≤ n) :
    ∃ e', e.remake s.text s.config level = .ok e' ∧ s.FoldedTo level e e' ∧
      s.fold e.quote.start level = .ok (s.withExpression i e', e') ∧
      (s.withExpression i e').Valid := by
  have hi := h.indexAt_of_covers he (h.covers_start (List.mem_of_getElem? he))
  obtain ⟨site, e', hsite, hmake, hfold⟩ := h.exists_fold hi hl
  have hmade : Made s.config site e := by
    obtain ⟨hlt, rfl⟩ := List.getElem?_eq_some_iff.mp hsite
    obtain ⟨hlt', rfl⟩ := List.getElem?_eq_some_iff.mp he
    exact (List.forall₂_iff_get.mp h.made).2 i hlt hlt'
  have hstands := h.standsIn site (List.mem_of_getElem? hsite)
  refine ⟨e', (remake_eq hstands hmade s.config level).trans hmake, ⟨?_, ?_, _, hfold⟩, hfold,
    h.withExpression hsite hmake⟩
  · exact (Expression.of_make hmake).2.2.2.1
  · rw [Site.outline_of_make hmake, Site.outline_of_make hmade]

theorem Valid.foldedTo_of_remake (h : s.Valid) {e e' : Expression} (he : e ∈ s.expressions)
    {level : Option Int} (hl : ∀ n ∈ level, 1 ≤ n)
    (hr : e.remake s.text s.config level = .ok e') : s.FoldedTo level e e' := by
  obtain ⟨i, he⟩ := List.mem_iff_getElem?.mp he
  obtain ⟨e'', hr', hto, -⟩ := h.exists_fold_start he hl
  cases hr'.symm.trans hr
  exact hto

/-- An expression is what it is made to again at its own level. -/
theorem Valid.remake_self (h : s.Valid) {e : Expression} (he : e ∈ s.expressions) :
    e.remake s.text s.config e.fold.level = .ok e := by
  obtain ⟨site, hstands, hmade⟩ := h.exists_site he
  exact (remake_eq hstands hmade s.config e.fold.level).trans hmade

/-- **Nothing but the expressions differs**, and perhaps whether the text is at hand. -/
def Reworked (s s' : Session) : Prop := Twin { s with expressions := s'.expressions } s'

theorem Reworked.refl (s : Session) : s.Reworked s := Twin.refl s

theorem Reworked.of_withExpression {s' : Session} {i : Nat} {e : Expression}
    (h : (s.withExpression i e).Reworked s') : s.Reworked s' := by
  have htwin : Twin { s with expressions := s'.expressions }
      { s.withExpression i e with expressions := s'.expressions } := ⟨rfl, rfl⟩
  exact htwin.trans h

end Session

open Session

namespace Command

theorem foldAt_of_fold {s next : Session} {e e' : Expression} {n : Int}
    (h : s.fold e.quote.start (some n) = .ok (next, e')) : foldAt n s e = .ok next := by
  unfold foldAt
  rw [h]
  rfl

/-- **The walk over the expressions.** Those before the ones still to come are done; each of the
others becomes what it is made to in the session as it was. -/
theorem exists_foldlM_foldAt {n : Int} (hn : 1 ≤ n) (todo : List Expression) :
    ∀ {s : Session} (done : List Expression), s.Valid → s.expressions = done ++ todo →
      ∃ s' todo', todo.foldlM (foldAt n) s = .ok s' ∧ s.Reworked s' ∧
        s'.expressions = done ++ todo' ∧
        List.Forall₂ (fun e e' => e.remake s.text s.config (some n) = .ok e') todo todo' := by
  induction todo with
  | nil =>
    intro s done _ hs
    exact ⟨s, [], rfl, Reworked.refl s, hs, .nil⟩
  | cons e todo ih =>
    intro s done h hs
    have he : s.expressions[done.length]? = some e := by simp [hs]
    obtain ⟨e', hr, -, hfold, hvalid⟩ := h.exists_fold_start he
      (show ∀ k ∈ some n, 1 ≤ k by simpa using hn)
    obtain ⟨s', todo', hrest, hreworked, hdone, hall⟩ :=
      ih (done ++ [e']) hvalid (by simp [withExpression, hs])
    refine ⟨s', e' :: todo', ?_, hreworked.of_withExpression, by simp [hdone], .cons hr hall⟩
    rw [List.foldlM_cons, foldAt_of_fold hfold]
    exact hrest

/-- **Every expression is folded as if it were alone.** -/
theorem exists_foldAll {s : Session} (h : s.Valid) {n : Int} (hn : 1 ≤ n) :
    ∃ s', foldAll s n = .ok s' ∧ s.Reworked s' ∧
      List.Forall₂ (s.FoldedTo (some n)) s.expressions s'.expressions := by
  obtain ⟨s', es, hfold, hreworked, hes, hall⟩ := exists_foldlM_foldAt hn s.expressions [] h rfl
  obtain rfl : s'.expressions = es := hes
  refine ⟨s', hfold, hreworked, ?_⟩
  have hmem := (List.forall₂_and_left _ _).mpr ⟨fun _ => id, hall⟩
  exact hmem.imp fun e e' he => h.foldedTo_of_remake he.1 (by simpa using hn) he.2

/-- A level below one is refused where there is anything to fold. -/
theorem foldAll_of_level_lt {s : Session} (h : s.Valid) {n : Int} (hn : n < 1) :
    foldAll s n = if s.expressions = [] then .ok s else .error (.foldLevel n) := by
  unfold foldAll
  rcases hs : s.expressions with _ | ⟨e, es⟩
  · rfl
  · have he : s.expressions[0]? = some e := by simp [hs]
    have hle := h.quote_le (List.mem_of_getElem? he)
    have haround : e.Around e.quote.start := ⟨by omega, hle⟩
    have hfold : s.fold e.quote.start (some n) = .error (.foldLevel n) :=
      SessionM.outcome_of_run_error (h.run_fold_of_level_lt he haround hn)
    rw [List.foldlM_cons, if_neg (by simp)]
    unfold foldAt
    rw [hfold]
    rfl

/-! ### One input -/

/-- The session that takes an input and nothing else. -/
def fresh (config : Config) (t : Text) : Session := reached config [.feed (completed t)]

theorem valid_fresh (config : Config) (t : Text) : (fresh config t).Valid := valid_reached config _

/-- Nothing is folded in a session that has only taken an input. -/
theorem exists_feed_fresh (config : Config) (t : Text) :
    ∃ rs, (new config).feed (completed t) = .ok (fresh config t, rs) ∧
      ∀ e ∈ (fresh config t).expressions, e.fold.level = none := by
  obtain ⟨lines, tail, rs, -, hfeed, -, hsites⟩ := (valid_new config).exists_feed (completed t)
  have hfresh : fresh config t = (new config).extended lines tail rs := serve_feed hfeed
  refine ⟨rs, hfresh ▸ hfeed, fun e he => ?_⟩
  rw [hfresh] at he
  obtain ⟨site, -, hmake⟩ := exists_of_mem_forall₂ hsites he
  exact (Expression.of_make hmake).2.2.2.1

/-- What is asked for by a level that may be left out. -/
def askedFor {α : Type} : Option α → Choice α
  | none => .absent
  | some a => .given a

/-- **The session of an input is folded as it was asked for.** -/
theorem exists_folded {a : Arguments} {level : Option Int} (ha : a.fold = askedFor level)
    (hl : ∀ n ∈ level, 1 ≤ n) (config : Config) (t : Text) :
    ∃ s, folded a (fresh config t) = .ok s ∧ (fresh config t).Reworked s ∧
      List.Forall₂ ((fresh config t).FoldedTo level) (fresh config t).expressions
        s.expressions := by
  have h := valid_fresh config t
  unfold folded
  rw [ha]
  cases level with
  | none =>
    refine ⟨fresh config t, rfl, Reworked.refl _, List.forall₂_same.mpr fun e he => ?_⟩
    obtain ⟨rs, -, hlevels⟩ := exists_feed_fresh config t
    have hself := h.remake_self he
    rw [hlevels e he] at hself
    exact h.foldedTo_of_remake he hl hself
  | some n => exact exists_foldAll h (hl n rfl)

theorem folded_of_level_lt {a : Arguments} {n : Int} (ha : a.fold = .given n) (hn : n < 1)
    (config : Config) (t : Text) : folded a (fresh config t) =
      if (fresh config t).expressions = [] then .ok (fresh config t)
      else .error (.foldLevel n) := by
  unfold folded
  rw [ha]
  exact foldAll_of_level_lt (valid_fresh config t) hn

theorem output_runInput (a : Arguments) (config : Config) (t : Text) :
    (runInput a config t).output = (folded a (fresh config t)).map (shown a) := by
  obtain ⟨rs, hfeed, -⟩ := exists_feed_fresh config t
  unfold runInput
  rw [hfeed]

/-! ### One input after the other -/

/-- The outcome after inputs that are all folded: their outputs one behind the other, and in the log
nothing but the remarks about them. -/
def Outcome.extended (o : Outcome) (a : Arguments) (config : Config) (texts : List Text)
    (sessions : List Session) : Outcome where
  output := o.output ++ sessions.flatMap (shown a)
  log := o.log.emitAll (texts.flatMap fun t => (runInput a config t).entries)
  status := o.status

section Inputs

variable {a : Arguments} {config : Config}

/-- The sessions are those of the inputs, folded as the arguments ask. -/
def AreFolded (a : Arguments) (config : Config) : List Text → List Session → Prop :=
  List.Forall₂ fun t s => folded a (fresh config t) = .ok s

theorem runInputs_cons {t : Text} {s : Session} (h : folded a (fresh config t) = .ok s)
    (o : Outcome) (texts : List Text) :
    runInputs a config o (t :: texts) =
      runInputs a config (o.extended a config [t] [s]) texts := by
  have hout : (runInput a config t).output = .ok (shown a s) := by
    rw [output_runInput, h]
    rfl
  unfold Outcome.extended
  rw [runInputs]
  simp only [hout, List.flatMap_cons, List.flatMap_nil, List.append_nil]

/-- **Inputs that are folded add their outputs**, and what comes after them goes on from there. -/
theorem runInputs_append {texts : List Text} {sessions : List Session}
    (h : AreFolded a config texts sessions) (rest : List Text) : ∀ o : Outcome,
      runInputs a config o (texts ++ rest) =
        runInputs a config (o.extended a config texts sessions) rest := by
  induction h with
  | nil =>
    intro o
    simp [Outcome.extended, Log.emitAll]
  | cons hs _ ih =>
    intro o
    rw [List.cons_append, runInputs_cons hs, ih]
    simp [Outcome.extended, Log.emitAll]

theorem runInputs_eq {texts : List Text} {sessions : List Session}
    (h : AreFolded a config texts sessions) (o : Outcome) :
    runInputs a config o texts = o.extended a config texts sessions := by
  have happend := runInputs_append h [] o
  rwa [List.append_nil] at happend

/-- A level below one leaves inputs without expressions as they are. -/
theorem areFolded_of_level_lt {n : Int} (ha : a.fold = .given n) (hn : n < 1) {texts : List Text}
    (h : ∀ t ∈ texts, (fresh config t).expressions = []) :
    AreFolded a config texts (texts.map (fresh config)) := by
  unfold AreFolded
  rw [List.forall₂_map_right_iff, List.forall₂_same]
  intro t ht
  rw [folded_of_level_lt ha hn, if_pos (h t ht)]

/-- The first input that has an expression. -/
theorem exists_first {texts : List Text} (h : ∃ t ∈ texts, (fresh config t).expressions ≠ []) :
    ∃ before t after, texts = before ++ t :: after ∧
      (∀ u ∈ before, (fresh config u).expressions = []) ∧ (fresh config t).expressions ≠ [] := by
  have hsome : (texts.find? fun t => !(fresh config t).expressions.isEmpty).isSome := by
    simpa using h
  obtain ⟨t, hfirst⟩ := Option.isSome_iff_exists.mp hsome
  obtain ⟨hne, before, after, rfl, hbefore⟩ := List.find?_eq_some_iff_append.mp hfirst
  exact ⟨before, t, after, rfl, by simpa using hbefore, by simpa using hne⟩

/-- A fold that is refused ends the command with what was written before. -/
theorem runInputs_refused {t : Text} {f : Fault} (h : folded a (fresh config t) = .error f)
    (hf : f.isRequest = true) (o : Outcome) (rest : List Text) :
    (runInputs a config o (t :: rest)).status = .ok 2 ∧
      (runInputs a config o (t :: rest)).output = o.output := by
  have hout : (runInput a config t).output = .error f := by
    rw [output_runInput, h]
    rfl
  rw [runInputs]
  simp only [hout]
  unfold Outcome.failed
  rw [if_pos hf]
  exact ⟨rfl, rfl⟩

end Inputs

/-! ### The whole command -/

section Whole

variable {a : Arguments} {w : Surroundings} {level : Level} {config : Config}

theorem run_eq {texts : List Text} (hlevel : a.level.value .warning .blankLogLevel = .ok level)
    (hconfig : configure a w.environment = .ok config) (htexts : gather a w = .ok texts) :
    run a w = runInputs a config (Outcome.initial level) texts := by
  unfold run runLogged
  rw [hlevel, hconfig, htexts]

/-- The command with one input, which is read from the standard input. -/
def alone (a : Arguments) (w : Surroundings) (t : Text) : Outcome :=
  run { a with files := [] } { w with standardInput := t }

theorem alone_eq (hlevel : a.level.value .warning .blankLogLevel = .ok level)
    (hconfig : configure a w.environment = .ok config) (t : Text) :
    alone a w t = runInputs a config (Outcome.initial level) [t] :=
  run_eq (a := { a with files := [] }) (w := { w with standardInput := t }) hlevel hconfig rfl

theorem output_alone (hlevel : a.level.value .warning .blankLogLevel = .ok level)
    (hconfig : configure a w.environment = .ok config) {t : Text} {s : Session}
    (h : folded a (fresh config t) = .ok s) : (alone a w t).output = shown a s := by
  rw [alone_eq hlevel hconfig, runInputs_eq (.cons h .nil)]
  simp [Outcome.extended, Outcome.initial]

/-- The outputs of inputs that are folded are those of the inputs alone. -/
theorem flatMap_shown (hlevel : a.level.value .warning .blankLogLevel = .ok level)
    (hconfig : configure a w.environment = .ok config) {texts : List Text}
    {sessions : List Session} (h : AreFolded a config texts sessions) :
    sessions.flatMap (shown a) = texts.flatMap fun t => (alone a w t).output := by
  induction h with
  | nil => rfl
  | cons hs _ ih => rw [List.flatMap_cons, List.flatMap_cons, ih, output_alone hlevel hconfig hs]

end Whole

end Command

open Command in
/-- **A command folds everything and keeps its inputs apart.** Let the log be set up, the settings
be valid and the inputs be read. If the fold level is left out or at least one, the exit code is
zero and nothing is reported: every input is folded, and in its session, which differs in nothing
else but that its text may be at hand, every expression is what a fold of it alone makes of it in a
session that has only taken this input. The output is that of the inputs alone, one behind the
other. If the fold level is below one, the exit code is two iff one of the inputs has an expression,
and then the output is that of the inputs before the first such one. -/
theorem inputs_are_folded_apart (a : Arguments) (w : Surroundings) {logLevel : Level}
    {config : Config} {texts : List Text}
    (hlog : a.level.value .warning .blankLogLevel = .ok logLevel)
    (hconfig : configure a w.environment = .ok config) (htexts : gather a w = .ok texts) :
    (∀ level : Option Int, a.fold = askedFor level → (∀ n ∈ level, 1 ≤ n) →
      (run a w).status = .ok 0 ∧
      (run a w).log = (({} : Log).setup logLevel).emitAll
        (texts.flatMap fun t => (runInput a config t).entries) ∧
      (∃ sessions, (run a w).output = sessions.flatMap (shown a) ∧
        List.Forall₂ (fun t s => folded a (fresh config t) = .ok s ∧ (fresh config t).Reworked s ∧
          List.Forall₂ ((fresh config t).FoldedTo level) (fresh config t).expressions s.expressions)
          texts sessions) ∧
      (run a w).output = texts.flatMap fun t => (alone a w t).output) ∧
    ∀ n : Int, a.fold = .given n → n < 1 →
      ((run a w).status = .ok 2 ↔ ∃ t ∈ texts, (fresh config t).expressions ≠ []) ∧
      ∀ before t after, texts = before ++ t :: after →
        (∀ u ∈ before, (fresh config u).expressions = []) → (fresh config t).expressions ≠ [] →
          (run a w).output = before.flatMap fun u => (alone a w u).output := by
  have hrun := run_eq hlog hconfig htexts
  refine ⟨fun level ha hl => ?_, fun n ha hn => ?_⟩
  · choose session hfolded hreworked hto using exists_folded ha hl config
    have hall : AreFolded a config texts (texts.map session) := by
      unfold AreFolded
      rw [List.forall₂_map_right_iff, List.forall₂_same]
      exact fun t _ => hfolded t
    rw [runInputs_eq hall] at hrun
    rw [hrun]
    refine ⟨rfl, rfl, ⟨_, rfl, ?_⟩, flatMap_shown hlog hconfig hall⟩
    rw [List.forall₂_map_right_iff, List.forall₂_same]
    exact fun t _ => ⟨hfolded t, hreworked t, hto t⟩
  · have hrefused : ∀ before t after, texts = before ++ t :: after →
        (∀ u ∈ before, (fresh config u).expressions = []) → (fresh config t).expressions ≠ [] →
          (run a w).status = .ok 2 ∧
          (run a w).output = before.flatMap fun u => (alone a w u).output := by
      rintro before t after rfl hbefore ht
      have hall := areFolded_of_level_lt ha hn hbefore
      have hfault : folded a (fresh config t) = .error (.foldLevel n) := by
        rw [folded_of_level_lt ha hn, if_neg ht]
      rw [hrun, runInputs_append hall, ← flatMap_shown hlog hconfig hall]
      exact runInputs_refused hfault rfl _ after
    refine ⟨⟨fun hstatus => ?_, ?_⟩,
      fun before t after h hb ht => (hrefused before t after h hb ht).2⟩
    · by_contra hnone
      push Not at hnone
      rw [hrun, runInputs_eq (areFolded_of_level_lt ha hn hnone)] at hstatus
      cases hstatus
    · intro hsome
      obtain ⟨before, t, after, htexts, hbefore, hne⟩ := exists_first hsome
      exact (hrefused before t after htexts hbefore hne).1

open Command in
/-- A file of notes, then an error with two expressions. Level one folds both; level zero is refused
after the notes. -/
theorem inputs_are_folded_apart_error_after_notes :
    let a : Int → Arguments := fun n =>
      { files := ["notes".toList, ['-']], width := .given 24, fold := .given n }
    let notes : Text := "In file included\n".toList
    let error : Text := "x.cc:1:2: error: no match for 'A<B<int>, C<long> >' and 'D<int>'\n".toList
    let w : Surroundings := ⟨[], error, fun _ => .ok notes⟩
    let config : Config := { width := 24 }
    (fresh config notes).expressions = [] ∧ (fresh config error).expressions.length = 2 ∧
    (run (a 1) w).status = .ok 0 ∧
    (run (a 1) w).output = (alone (a 1) w notes).output ++ (alone (a 1) w error).output ∧
    (run (a 1) w).output =
      "In file included\nx.cc:1:2: error: no match for '\nA<…>' and '\nD<…>'\n".toList ∧
    (run (a 0) w).status = .ok 2 ∧ (run (a 0) w).output = (alone (a 0) w notes).output := by
  intro a notes error w config
  have hnotes : (fresh config notes).expressions = [] := by decide +kernel
  have herror : (fresh config error).expressions.length = 2 := by decide +kernel
  have hsome : (fresh config error).expressions ≠ [] := fun h => by simp [h] at herror
  have hconfig (n : Int) : configure (a n) w.environment = .ok config := rfl
  have htexts (n : Int) : gather (a n) w = .ok [notes, error] := rfl
  obtain ⟨hok, -, -, happart⟩ :=
    (inputs_are_folded_apart (a 1) w rfl (hconfig 1) (htexts 1)).1 (some 1) rfl (by decide)
  obtain ⟨hstatus, hcut⟩ :=
    (inputs_are_folded_apart (a 0) w rfl (hconfig 0) (htexts 0)).2 0 rfl (by decide)
  refine ⟨hnotes, herror, hok, by simpa using happart, by decide +kernel,
    hstatus.mpr ⟨error, by simp, hsome⟩, ?_⟩
  simpa using hcut [notes] error [] rfl (by simpa using hnotes) hsome

end DiagLayout
