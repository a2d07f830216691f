import DiagLayout.Command
import Mathlib.Tactic.Common

/-!
# Sizes of the arguments and of the environment

The width and the indent come from the environment, and then from the arguments. What the
environment holds is looked at in any case: a variable *holds a size* if it is not set, or empty, or
a positive integer (`Environment.HoldsSize`), and a command in an environment where one of the two
variables does not is refused, whatever its arguments (`Command.configure_refused`). In every other
environment the settings are given outright (`Command.configure_eq`).

So a size among the arguments takes the place of the one in the environment only where the
environment holds sizes. The main result is `given_sizes_override_iff`.
-/

namespace DiagLayout

/-! ### The environment -/

namespace Environment

variable {env env' : Environment} {name : String}

/-- **The variable holds a size**: if it is set and not empty, it is a positive integer. -/
def HoldsSize (env : Environment) (name : String) : Prop :=
  ∀ value, env.lookup name = some value → value ≠ [] → ∃ n, Text.readInt? value = some n ∧ 0 < n

/-- Both variables hold a size. -/
def HoldsSizes (env : Environment) : Prop :=
  env.HoldsSize Config.widthVariable ∧ env.HoldsSize Config.indentVariable

/-- The size that the variable holds, or else the default. -/
def sizeOr (env : Environment) (name : String) (default : Int) : Int :=
  match env.int? name with
  | .ok (some n) => n
  | _ => default

theorem int?_congr (h : env.lookup name = env'.lookup name) : env.int? name = env'.int? name := by
  unfold int?
  rw [h]

theorem sizeOr_congr (h : env.lookup name = env'.lookup name) (default : Int) :
    env.sizeOr name default = env'.sizeOr name default := by
  unfold sizeOr
  rw [int?_congr h]

theorem sizeOr_eq {size : Option Int} (h : env.int? name = .ok size) (default : Int) :
    env.sizeOr name default = size.getD default := by
  unfold sizeOr
  rw [h]
  cases size <;> rfl

theorem isRequest_of_int? {f : Fault} (h : env.int? name = .error f) : f.isRequest = true := by
  unfold int? at h
  split at h
  · cases h
  · cases h
  · split at h
    · cases h
      rfl
    · cases h

/-- To hold a size is to be read as a positive integer, or as nothing. -/
theorem holdsSize_iff :
    env.HoldsSize name ↔ ∃ size, env.int? name = .ok size ∧ ∀ n ∈ size, 0 < n := by
  unfold HoldsSize int?
  rcases hv : env.lookup name with _ | _ | ⟨c, t⟩
  · simp
  · simp
  · cases hn : Text.readInt? (c :: t) with
    | none => simp [hn]
    | some n => simp [hn]

instance (env : Environment) (name : String) : Decidable (env.HoldsSize name) :=
  match hsize : env.int? name with
  | .error _ => isFalse fun h => by
    obtain ⟨size, heq, -⟩ := holdsSize_iff.mp h
    cases hsize.symm.trans heq
  | .ok size =>
    decidable_of_iff (∀ n ∈ size, 0 < n) (by
      rw [holdsSize_iff, hsize]
      simp)

instance (env : Environment) : Decidable env.HoldsSizes := inferInstanceAs (Decidable (_ ∧ _))

end Environment

namespace Config

variable {env : Environment}

theorem getD_pos {size : Option Int} {default : Int} (hd : 0 < default) (h : ∀ n ∈ size, 0 < n) :
    0 < size.getD default := by
  cases size with
  | none => exact hd
  | some n => exact h n rfl

theorem pos_of_getD {size : Option Int} {default : Int} (h : 0 < size.getD default) :
    ∀ n ∈ size, 0 < n := by
  rintro n rfl
  exact h

theorem withWidth_of_pos (c : Config) {n : Int} (h : 0 < n) :
    c.withWidth n = .ok { c with width := n, width_pos := h } := dif_pos h

theorem withIndent_of_pos (c : Config) {n : Int} (h : 0 < n) :
    c.withIndent n = .ok { c with indent := n, indent_pos := h } := dif_pos h

/-- The settings with the given sizes, for lines of the given shapes. -/
def sized (width indent : Int) (hw : 0 < width) (hi : 0 < indent) (shapes : List LineShape) :
    Config where
  width
  indent
  shapes
  width_pos := hw
  indent_pos := hi

theorem ofEnvironment_of_int? {width indent : Option Int}
    (hw : env.int? widthVariable = .ok width) (hi : env.int? indentVariable = .ok indent) :
    ofEnvironment env {} =
      ({} : Config).withWidth (width.getD 100) >>=
        fun c => c.withIndent (indent.getD c.indent) := by
  unfold ofEnvironment sizeFrom
  simp only [hw, hi]
  rfl

/-- What the environment gives where it holds sizes. -/
theorem ofEnvironment_eq (h : env.HoldsSizes) :
    ∃ (hw : 0 < env.sizeOr widthVariable 100) (hi : 0 < env.sizeOr indentVariable 2),
      ofEnvironment env {} = .ok (sized _ _ hw hi Family.any.shapes) := by
  obtain ⟨width, hwidth, hw⟩ := Environment.holdsSize_iff.mp h.1
  obtain ⟨indent, hindent, hi⟩ := Environment.holdsSize_iff.mp h.2
  rw [Environment.sizeOr_eq hwidth, Environment.sizeOr_eq hindent]
  have hwpos : 0 < width.getD 100 := getD_pos (by decide) hw
  have hipos : 0 < indent.getD 2 := getD_pos (by decide) hi
  refine ⟨hwpos, hipos, ?_⟩
  rw [ofEnvironment_of_int? hwidth hindent, withWidth_of_pos _ hwpos]
  exact withIndent_of_pos _ hipos

/-- **Where the environment does not hold sizes, it is refused.** The width is read first, then the
indent, and only then is either of them looked at. -/
theorem ofEnvironment_refused (h : ¬ env.HoldsSizes) :
    ∃ f, ofEnvironment env {} = .error f ∧ f.isRequest = true := by
  cases hw : env.int? widthVariable with
  | error f =>
    refine ⟨f, ?_, Environment.isRequest_of_int? hw⟩
    unfold ofEnvironment sizeFrom
    rw [hw]
    rfl
  | ok width =>
    cases hi : env.int? indentVariable with
    | error f =>
      refine ⟨f, ?_, Environment.isRequest_of_int? hi⟩
      unfold ofEnvironment sizeFrom
      simp only [hw, hi]
      rfl
    | ok indent =>
      rw [ofEnvironment_of_int? hw hi]
      by_cases hwidth : 0 < width.getD 100
      · have hindent : ¬ 0 < indent.getD 2 := fun hindent =>
          h ⟨Environment.holdsSize_iff.mpr ⟨width, hw, pos_of_getD hwidth⟩,
            Environment.holdsSize_iff.mpr ⟨indent, hi, pos_of_getD hindent⟩⟩
        refine ⟨.badIndent (indent.getD 2), ?_, rfl⟩
        rw [withWidth_of_pos _ hwidth]
        exact dif_neg hindent
      · refine ⟨.badWidth (width.getD 100), ?_, rfl⟩
        rw [withWidth, dif_neg hwidth]
        rfl

end Config

/-! ### The arguments -/

/-- The option is left out, or it gives a positive size. -/
def Choice.IsSize (c : Choice Int) : Prop := c = .absent ∨ ∃ n, c = .given n ∧ 0 < n

/-- The size that the option gives, or else the default. -/
def Choice.sizeOr (c : Choice Int) (default : Int) : Int :=
  match c with
  | .given n => n
  | _ => default

/-- An option is left blank, or it has a value. -/
theorem Choice.blank_or_value {α : Type} (c : Choice α) (default : α) (f : Fault) :
    c = .blank ∨ ∃ x, c.value default f = .ok x := by
  cases c with
  | absent => exact Or.inr ⟨default, rfl⟩
  | blank => exact Or.inl rfl
  | given x => exact Or.inr ⟨x, rfl⟩

theorem Choice.IsSize.value_eq {c : Choice Int} (h : c.IsSize) {default : Int} (hd : 0 < default)
    (f : Fault) : c.value default f = .ok (c.sizeOr default) ∧ 0 < c.sizeOr default := by
  rcases h with rfl | ⟨n, rfl, hn⟩
  · exact ⟨rfl, hd⟩
  · exact ⟨rfl, hn⟩

namespace Command

variable {a : Arguments} {env env' : Environment}

/-- **The settings where the environment holds sizes**: a size of the arguments, or else that of the
environment. -/
theorem configure_eq (h : env.HoldsSizes) (hw : a.width.IsSize) (hi : a.indent.IsSize)
    {family : Family} (hf : a.family.value .any .blankFamily = .ok family) :
    ∃ (hwpos : 0 < a.width.sizeOr (env.sizeOr Config.widthVariable 100))
      (hipos : 0 < a.indent.sizeOr (env.sizeOr Config.indentVariable 2)),
      configure a env = .ok (Config.sized _ _ hwpos hipos family.shapes) := by
  obtain ⟨hwpos, hipos, hc⟩ := Config.ofEnvironment_eq h
  obtain ⟨hwidth, hwpos'⟩ := hw.value_eq hwpos .blankSize
  obtain ⟨hindent, hipos'⟩ := hi.value_eq hipos .blankSize
  refine ⟨hwpos', hipos', ?_⟩
  unfold configure
  simp only [hc, hf, hwidth, hindent, bind, Except.bind, Config.withShapes, Config.sized,
    Config.withWidth_of_pos _ hwpos', Config.withIndent_of_pos _ hipos']

/-- **Where the environment does not hold sizes, every command is refused.** -/
theorem configure_refused (a : Arguments) (h : ¬ env.HoldsSizes) :
    ∃ f, configure a env = .error f ∧ f.isRequest = true := by
  obtain ⟨f, hc, hf⟩ := Config.ofEnvironment_refused h
  refine ⟨f, ?_, hf⟩
  unfold configure
  rw [hc]
  rfl

/-- A family that is left blank is a fault, once the environment is accepted. -/
theorem configure_blank (h : env.HoldsSizes) (hf : a.family = .blank) :
    configure a env = .error .blankFamily := by
  obtain ⟨hwpos, hipos, hc⟩ := Config.ofEnvironment_eq h
  unfold configure
  rw [hc, hf]
  rfl

/-- There are settings iff the environment holds sizes. -/
theorem isSome_configure_iff (hw : a.width.IsSize) (hi : a.indent.IsSize) {family : Family}
    (hf : a.family.value .any .blankFamily = .ok family) :
    (configure a env).toOption.isSome ↔ env.HoldsSizes := by
  by_cases h : env.HoldsSizes
  · obtain ⟨_, _, hc⟩ := configure_eq h hw hi hf
    simp [hc, h, Except.toOption]
  · obtain ⟨f, hc, -⟩ := configure_refused a h
    simp [hc, h, Except.toOption]

/-- The size that the option gives, or else the one that two environments agree on. -/
theorem sizeOr_eq_sizeOr {c : Choice Int} {name : String}
    (h : (∃ n, c = .given n ∧ 0 < n) ∨ c = .absent ∧ env.lookup name = env'.lookup name)
    (default : Int) :
    c.sizeOr (env.sizeOr name default) = c.sizeOr (env'.sizeOr name default) := by
  rcases h with ⟨n, rfl, -⟩ | ⟨rfl, hlookup⟩
  · rfl
  · exact Environment.sizeOr_congr hlookup default

/-- The environment plays its part in the settings alone. -/
theorem run_congr (w : Surroundings) (h : configure a env = configure a env') :
    run a { w with environment := env } = run a { w with environment := env' } := by
  unfold run runLogged
  simp only [h]
  rfl

theorem run_of_refused (w : Surroundings) {f : Fault} (h : configure a env = .error f)
    (hf : f.isRequest = true) {level : Level}
    (hlevel : a.level.value .warning .blankLogLevel = .ok level) :
    (run a { w with environment := env }).status = .ok 2 ∧
      (run a { w with environment := env }).output = [] := by
  unfold run runLogged
  simp only [hlevel, h]
  unfold Outcome.failed
  rw [if_pos hf]
  exact ⟨rfl, rfl⟩

theorem run_of_blank (w : Surroundings) (h : env.HoldsSizes) (hf : a.family = .blank)
    {level : Level} (hlevel : a.level.value .warning .blankLogLevel = .ok level) :
    (run a { w with environment := env }).status = .error .blankFamily := by
  unfold run runLogged
  simp only [hlevel, configure_blank h hf]
  rfl

/-- A log level that is left blank ends the command before the environment is looked at. -/
theorem run_of_blank_level (a : Arguments) (w : Surroundings) {f : Fault}
    (hlevel : a.level.value .warning .blankLogLevel = .error f) :
    run a w = { status := .error f } := by
  unfold run
  rw [hlevel]

/-- All environments that do not hold sizes are refused in the same way. -/
theorem run_refused_alike (a : Arguments) (w : Surroundings) (h : ¬ env.HoldsSizes)
    (h' : ¬ env'.HoldsSizes) :
    (run a { w with environment := env }).status = (run a { w with environment := env' }).status ∧
    (run a { w with environment := env }).output =
      (run a { w with environment := env' }).output := by
  obtain ⟨f, hc, hf⟩ := configure_refused a h
  obtain ⟨f', hc', hf'⟩ := configure_refused a h'
  cases hlevel : a.level.value .warning .blankLogLevel with
  | error f =>
    rw [run_of_blank_level a _ hlevel, run_of_blank_level a _ hlevel]
    exact ⟨rfl, rfl⟩
  | ok level =>
    obtain ⟨hstatus, houtput⟩ := run_of_refused w hc hf hlevel
    obtain ⟨hstatus', houtput'⟩ := run_of_refused w hc' hf' hlevel
    exact ⟨hstatus.trans hstatus'.symm, houtput.trans houtput'.symm⟩

/-- With a family left blank the exit code still tells the environments that hold sizes. -/
theorem holdsSizes_of_status (w : Surroundings) (hf : a.family = .blank) {level : Level}
    (hlevel : a.level.value .warning .blankLogLevel = .ok level)
    (hstatus : (run a { w with environment := env }).status =
      (run a { w with environment := env' }).status) (h : env.HoldsSizes) : env'.HoldsSizes := by
  by_contra h'
  obtain ⟨f, hc, hrequest⟩ := configure_refused a h'
  rw [run_of_blank w h hf hlevel, (run_of_refused w hc hrequest hlevel).1] at hstatus
  cases hstatus

section Override

variable (hwidth : (∃ n, a.width = .given n ∧ 0 < n) ∨
    a.width = .absent ∧ env.lookup Config.widthVariable = env'.lookup Config.widthVariable)
  (hindent : (∃ n, a.indent = .given n ∧ 0 < n) ∨
    a.indent = .absent ∧ env.lookup Config.indentVariable = env'.lookup Config.indentVariable)
include hwidth hindent

/-- Environments that hold sizes lead to the same settings. -/
theorem configure_congr (h : env.HoldsSizes) (h' : env'.HoldsSizes) :
    configure a env = configure a env' := by
  rcases a.family.blank_or_value .any .blankFamily with hblank | ⟨family, hf⟩
  · rw [configure_blank h hblank, configure_blank h' hblank]
  · have hw : a.width.IsSize := hwidth.symm.imp And.left id
    have hi : a.indent.IsSize := hindent.symm.imp And.left id
    obtain ⟨hwpos, hipos, hc⟩ := configure_eq h hw hi hf
    obtain ⟨hwpos', hipos', hc'⟩ := configure_eq h' hw hi hf
    rw [hc, hc']
    simp only [sizeOr_eq_sizeOr hwidth, sizeOr_eq_sizeOr hindent]

/-- Environments of which both hold sizes or neither does cannot be told apart. -/
theorem same_of_iff (w : Surroundings) (hiff : env.HoldsSizes ↔ env'.HoldsSizes) :
    (configure a env).toOption = (configure a env').toOption ∧
    (run a { w with environment := env }).status = (run a { w with environment := env' }).status ∧
    (run a { w with environment := env }).output =
      (run a { w with environment := env' }).output := by
  by_cases h : env.HoldsSizes
  · have hc := configure_congr hwidth hindent h (hiff.mp h)
    rw [hc, run_congr w hc]
    exact ⟨rfl, rfl, rfl⟩
  · have h' : ¬ env'.HoldsSizes := fun h' => h (hiff.mpr h')
    obtain ⟨f, hc, -⟩ := configure_refused a h
    obtain ⟨f', hc', -⟩ := configure_refused a h'
    rw [hc, hc']
    exact ⟨rfl, run_refused_alike a w h h'⟩

end Override

/-- A family left blank leads to no settings. -/
theorem toOption_configure_blank (hf : a.family = .blank) (env : Environment) :
    (configure a env).toOption = none := by
  by_cases h : env.HoldsSizes
  · rw [configure_blank h hf]
    rfl
  · obtain ⟨f, hc, -⟩ := configure_refused a h
    rw [hc]
    rfl

end Command

open Command in
/-- **A size among the arguments overrides the environment iff the environment is accepted.** Let
two environments differ at most in variables for which the arguments give a positive size. Then the
settings, the exit code and the output of a command are the same in both iff both hold sizes or
neither does; unless the arguments leave the family and the log level blank, which ends every
command in the same way. Where an environment holds sizes the settings have the sizes of the
arguments, if there is a family to make them for; where it does not, there are no settings and no
output, and the exit code is two. -/
theorem given_sizes_override_iff (a : Arguments) (w : Surroundings) (env env' : Environment)
    (hwidth : (∃ n, a.width = .given n ∧ 0 < n) ∨
      a.width = .absent ∧ env.lookup Config.widthVariable = env'.lookup Config.widthVariable)
    (hindent : (∃ n, a.indent = .given n ∧ 0 < n) ∨
      a.indent = .absent ∧ env.lookup Config.indentVariable = env'.lookup Config.indentVariable) :
    let outcome := fun env => run a { w with environment := env }
    ((configure a env).toOption = (configure a env').toOption ∧
      (outcome env).status = (outcome env').status ∧ (outcome env).output = (outcome env').output ↔
        (env.HoldsSizes ↔ env'.HoldsSizes) ∨ a.family = .blank ∧ a.level = .blank) ∧
    (env.HoldsSizes → env'.HoldsSizes →
      configure a env = configure a env' ∧ outcome env = outcome env') ∧
    (env.HoldsSizes → a.family ≠ .blank → ∃ c, configure a env = .ok c ∧
      (∀ n, a.width = .given n → c.width = n) ∧ ∀ n, a.indent = .given n → c.indent = n) ∧
    (¬ env.HoldsSizes → (configure a env).toOption = none ∧
      ∀ level, a.level.value .warning .blankLogLevel = .ok level →
        (outcome env).status = .ok 2 ∧ (outcome env).output = []) := by
  intro outcome
  have hw : a.width.IsSize := hwidth.symm.imp And.left id
  have hi : a.indent.IsSize := hindent.symm.imp And.left id
  refine ⟨⟨fun ⟨hconfig, hstatus, _⟩ => ?_, ?_⟩, fun h h' => ?_, fun h hne => ?_, fun h => ?_⟩
  · rcases a.family.blank_or_value .any .blankFamily with hblank | ⟨family, hf⟩
    · rcases a.level.blank_or_value .warning .blankLogLevel with hlevel | ⟨level, hlevel⟩
      · exact Or.inr ⟨hblank, hlevel⟩
      · exact Or.inl ⟨holdsSizes_of_status w hblank hlevel hstatus,
          holdsSizes_of_status w hblank hlevel hstatus.symm⟩
    · rw [← isSome_configure_iff hw hi hf, ← isSome_configure_iff hw hi hf, hconfig]
      exact Or.inl Iff.rfl
  · rintro (hiff | ⟨hblank, hlevel⟩)
    · exact same_of_iff hwidth hindent w hiff
    · have hended : ∀ env, outcome env = { status := .error .blankLogLevel } := fun env =>
        run_of_blank_level a _ (by rw [hlevel]; rfl)
      rw [toOption_configure_blank hblank, toOption_configure_blank hblank, hended, hended]
      exact ⟨rfl, rfl, rfl⟩
  · have hc := configure_congr hwidth hindent h h'
    exact ⟨hc, run_congr w hc⟩
  · rcases a.family.blank_or_value .any .blankFamily with hblank | ⟨family, hf⟩
    · exact absurd hblank hne
    · obtain ⟨hwpos, hipos, hc⟩ := configure_eq h hw hi hf
      refine ⟨_, hc, fun n hn => ?_, fun n hn => ?_⟩
      · simp only [Config.sized, hn, Choice.sizeOr]
      · simp only [Config.sized, hn, Choice.sizeOr]
  · obtain ⟨f, hc, hrequest⟩ := configure_refused a h
    rw [hc]
    exact ⟨rfl, fun level hlevel => run_of_refused w hc hrequest hlevel⟩

/-- Both sizes are given. It makes no difference that the environment holds others, one of them with
spaces around it. -/
theorem given_sizes_override_iff_both :
    let a : Arguments := { width := .given 30, indent := .given 3 }
    let env : Environment :=
      [(Config.widthVariable, "72".toList), (Config.indentVariable, " 4 ".toList)]
    let w : Command.Surroundings := ⟨env, "ok\n".toList, fun path => .error (.missingFile path)⟩
    Arguments.read ["-w".toList, "30".toList, "--indent=3".toList] = .ok a ∧
    env.HoldsSizes ∧ Command.run a w = Command.run a { w with environment := [] } ∧
    ∃ c, Command.configure a env = .ok c ∧ c.width = 30 ∧ c.indent = 3 := by
  intro a env w
  have hread : Arguments.read ["-w".toList, "30".toList, "--indent=3".toList] = .ok a := by
    decide +kernel
  have henv : env.HoldsSizes := by decide +kernel
  have hnone : Environment.HoldsSizes [] := by decide +kernel
  obtain ⟨-, hsame, hsettings, -⟩ := given_sizes_override_iff a w env []
    (Or.inl ⟨30, rfl, by decide⟩) (Or.inl ⟨3, rfl, by decide⟩)
  obtain ⟨c, hc, hwidth, hindent⟩ := hsettings henv (by decide)
  exact ⟨hread, henv, (hsame henv hnone).2, c, hc, hwidth 30 rfl, hindent 3 rfl⟩

/-- A width in the environment that is no integer stops a command whose arguments give both sizes:
the exit code is two and nothing is written, where without the variable it is zero and the input is
written. -/
theorem unread_width_stops_given_sizes :
    let a : Arguments := { width := .given 40, indent := .given 2 }
    let w : Command.Surroundings := ⟨[], "ok\n".toList, fun path => .error (.missingFile path)⟩
    let env : Environment := [(Config.widthVariable, "wide".toList)]
    Arguments.read ["--width".toList, "40".toList, "--indent".toList, "2".toList] = .ok a ∧
    (Command.run a { w with environment := env }).status = .ok 2 ∧
    (Command.run a { w with environment := env }).output = [] ∧
    (Command.run a w).status = .ok 0 ∧ (Command.run a w).output = "ok\n".toList ∧
    ¬ ∀ env env' : Environment, (Command.run a { w with environment := env }).status =
      (Command.run a { w with environment := env' }).status := by
  intro a w env
  have hread : Arguments.read ["--width".toList, "40".toList, "--indent".toList, "2".toList] =
      .ok a := by decide +kernel
  have hstopped : (Command.run a { w with environment := env }).status = .ok 2 := by decide +kernel
  have hwritten : (Command.run a w).status = .ok 0 := by decide +kernel
  refine ⟨hread, hstopped, by decide +kernel, hwritten, by decide +kernel, fun hall => ?_⟩
  have hsame := hall env []
  rw [hstopped, show (Command.run a { w with environment := [] }).status = .ok 0 from hwritten]
    at hsame
  cases hsame

end DiagLayout
