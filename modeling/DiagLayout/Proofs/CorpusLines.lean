import DiagLayout.Proofs.CorpusReadings
import DiagLayout.Proofs.LoneMarks
import Mathlib.Tactic.IntervalCases

/-!
# The lines of the corpus

Each line of the corpus is a diagnostic with one quote, which is a function from its first character
to its last.

* `Quote.all_between`: the quote of a line with one pair of marks;
* `Joins`: which characters stand next to each other in a line, so that neither a spelling
  (`ofText_of_joined`) nor a marker (`Diagnoses.not_occursIn`) can be in it;
* `IsPlace.exists_afterFile?`: the place that a line starts with is read;
* `yields_diagnosticLines`: every line of the corpus quotes one function, whatever is drawn;
* `corpus_is_accepted`: all types and lines of the corpus are read to their end.
-/

namespace DiagLayout

theorem Text.isInfix_of_occursIn {word t : Text} (h : occursIn word t = true) : word <:+: t := by
  induction t with
  | nil => rw [List.isEmpty_iff.mp h]
  | cons c t ih =>
    rw [occursIn, Bool.or_eq_true] at h
    rcases h with h | h
    · obtain ⟨rest, hrest⟩ := Option.isSome_iff_exists.mp h
      exact ⟨[], rest, (eq_append_of_after? hrest).symm⟩
    · exact (ih h).trans (List.suffix_cons c t).isInfix

/-- **A line with one pair of marks has the quote between them**, and no other. -/
theorem Quote.all_between {front body back : Text} (hfront : ∀ c ∈ front, isMark c = false)
    (hbody : '’' ∉ body) (hne : body ≠ []) (hback : ∀ c ∈ back, isMark c = false) :
    all (front ++ '‘' :: (body ++ '’' :: back)) = [⟨front.length + 1, body⟩] := by
  have hnone : body.findIdx? (· == '’') = none :=
    List.findIdx?_eq_none_iff.mpr fun c hc => beq_false_of_ne fun heq => hbody (heq ▸ hc)
  have hclose : close? '‘' (body ++ '’' :: back) = some body.length := by
    have hfirst : ('’' :: back).findIdx? (· == '’') = some 0 := rfl
    rw [close?, if_pos rfl, List.findIdx?_append, hnone, hfirst, Option.none_or, Option.map_some,
      Nat.zero_add]
  have hlength : body.length ≠ 0 := by simpa using hne
  rw [all, allFrom_append hfront, allFrom_closed _ rfl hclose, ofLength, if_neg hlength,
    List.take_left, ← List.drop_drop, List.drop_left, List.drop_succ_cons, List.drop_zero,
    allFrom_eq_nil hback, Nat.zero_add, List.append_nil]

namespace Corpus

/-! ### Characters next to each other -/

/-- Two characters may stand next to each other in a line. Spellings and markers have neighbours
that may not, unless they have a strange character. -/
def Joins (a b : Char) : Prop :=
  Apart a b ∧ ¬ (a = 's' ∧ b = 's') ∧ ¬ ((a = '(' ∨ a = '<') ∧ b = 'l')

instance (a b : Char) : Decidable (Joins a b) := by
  unfold Joins
  infer_instance

/-- The characters that some character may not stand in front of. -/
def followers : Text := ['p', 'n', 's', 'l']

theorem joins_of_not_mem {b : Char} (h : b ∉ followers) (a : Char) : Joins a b := by
  simp only [followers, List.mem_cons, List.not_mem_nil, or_false, not_or] at h
  obtain ⟨hp, hn, hs, hl⟩ := h
  exact ⟨⟨fun hab => hp hab.2, fun hab => hn hab.2⟩, fun hab => hs hab.2, fun hab => hl hab.2⟩

/-- The text may be put behind any other. -/
def Calm (t : Text) : Prop := t.IsChain Joins ∧ ∀ c ∈ t.head?, c ∉ followers

instance (t : Text) : Decidable (Calm t) :=
  decidable_of_iff (t.IsChain Joins ∧ (t.head?.all fun c => !followers.contains c) = true)
    (by cases t <;> simp [Calm])

theorem joined_append {u v : Text} (hu : u.IsChain Joins) (hv : Calm v) :
    (u ++ v).IsChain Joins :=
  List.isChain_append.mpr ⟨hu, hv.1, fun a _ b hb => joins_of_not_mem (hv.2 b hb) a⟩

namespace Calm

theorem append {u v : Text} (hu : Calm u) (hv : Calm v) : Calm (u ++ v) := by
  refine ⟨joined_append hu.1 hv, fun c hc => ?_⟩
  cases u with
  | nil => exact hv.2 c hc
  | cons d u => exact hu.2 c hc

theorem cons {c : Char} {t : Text} (hc : c ∉ followers) (ht : Calm t) : Calm (c :: t) :=
  append (u := [c]) ⟨List.isChain_singleton c, by rintro d ⟨⟩; exact hc⟩ ht

theorem of_forall {t : Text} (h : ∀ c ∈ t, c ∉ followers) : Calm t := by
  induction t with
  | nil => decide
  | cons c t ih =>
    exact (ih fun d hd => h d (List.mem_cons_of_mem _ hd)).cons (h c List.mem_cons_self)

/-- What may follow a parenthesis may follow the marks of a type. -/
theorem mark {c : Char} {t : Text} (hc : c ∈ marks) (h : Calm ('(' :: t)) : Calm (c :: t) := by
  obtain ⟨hhead, htail⟩ := List.isChain_cons.mp h.1
  have hmarks : ∀ c ∈ marks, c ≠ 's' ∧ c ∉ followers := Text.forall_mem_of_all (by decide)
  obtain ⟨-, ho, hn, -⟩ := marks_spec c hc
  obtain ⟨hs, hfree⟩ := hmarks c hc
  refine ⟨List.isChain_cons.mpr ⟨fun b hb => ?_, htail⟩, by rintro d ⟨⟩; exact hfree⟩
  have hl : b ≠ 'l' := fun heq => (hhead b hb).2.2 ⟨Or.inl rfl, heq⟩
  exact ⟨⟨fun hab => ho hab.1, fun hab => hn hab.1⟩, fun hab => hs hab.1, fun hab => hl hab.2⟩

end Calm

/-! ### The text of a type -/

/-- Characters that stand in no quote. -/
def strange : Text := ['\'', '‘', '’', '-', '\x7b', 'y']

/-- No strange characters stand in the text. -/
def Clear (t : Text) : Prop := ∀ c ∈ strange, c ∉ t

instance (t : Text) : Decidable (Clear t) :=
  decidable_of_iff ((strange.all fun c => !t.contains c) = true) (by simp [Clear])

theorem Clear.append {u v : Text} (hu : Clear u) (hv : Clear v) : Clear (u ++ v) := by
  intro c hc hmem
  rcases List.mem_append.mp hmem with hmem | hmem
  · exact hu c hc hmem
  · exact hv c hc hmem

section Types

variable {t : Text} (h : IsType t)
include h

theorem IsType.exists_listed : ∃ ts : Types, ts.Formed ∧ t = ts.listed false := by
  obtain ⟨ts, -, hts, htexts⟩ := h .nil trivial
  exact ⟨ts, hts, (Types.listed_of_texts htexts).symm⟩

theorem IsType.nested : Nested Glyph.cls (plain t) := by
  obtain ⟨ts, hts, rfl⟩ := h.exists_listed
  exact Types.nested_listed hts false

theorem IsType.clear : Clear t := by
  obtain ⟨ts, hts, rfl⟩ := h.exists_listed
  have hnames : ∀ name ∈ leaves ++ templates, Clear name := by decide +kernel
  have hmarks : ∀ c ∈ marks, Clear [c] := Text.forall_mem_of_all (by decide)
  exact Types.listed_closed (by decide) hnames (fun c hc t ht => (hmarks c hc).append ht)
    (fun u v hu hv _ => hu.append hv) hts false

/-- A type may be put behind a parenthesis. -/
theorem IsType.calm_parenthesis : Calm ('(' :: t) := by
  obtain ⟨ts, hts, rfl⟩ := h.exists_listed
  have hnames : ∀ name ∈ leaves ++ templates, Calm ('(' :: name) := by decide +kernel
  have hmarks : ∀ c ∈ marks, c ∉ followers := Text.forall_mem_of_all (by decide)
  -- of all that stands in front of a type, the parenthesis asks for most
  refine Types.listed_closed (Q := fun t => Calm ('(' :: t)) (by decide) hnames
    (fun c hc t ht => (ht.mark hc).cons (by decide)) (fun u v hu hv hhead => ?_) hts false
  exact hu.append ⟨(List.isChain_cons.mp hv.1).2, fun c hc => hmarks c (hhead c hc)⟩

theorem IsType.calm_space : Calm (' ' :: t) := h.calm_parenthesis.mark (by decide)

end Types

/-! ### No spelling starts in a quote -/

/-- **In a quote every character plays its own part.** A label with a place would start with a
parenthesis, but no type has its next characters. -/
theorem ofText_of_joined {body : Text} (hbody : Clear body)
    (hjoined : body.IsChain Joins) : Source.ofText body = plain body := by
  have hwords : ∀ w ∈ Spelling.longStarts, strange.any w.contains = true ∨ ¬ w.IsChain Joins := by
    decide +kernel
  refine Source.ofText_of_not_spelled fun x hx => ?_
  obtain ⟨s, -, hcovered⟩ := exists_covered_of_spelled hx
  refine s.not_covered (fun p before => ?_) x hcovered
  rw [Option.eq_none_iff_forall_ne_some]
  intro rest hrest
  obtain ⟨w, hw, hstarts⟩ := Spelling.exists_longStart_of_rest? hrest
  exact not_isPrefix_drop hbody hjoined (hwords w hw) p hstarts

/-! ### Where a line starts -/

/-- The decimal digits. -/
def digits : Text := "0123456789".toList

theorem decimal_eq (n : Nat) : decimal n = Nat.toDigits 10 n := by
  simp [decimal, toString, Nat.repr]

theorem mem_digits {n : Nat} {c : Char} (h : c ∈ decimal n) : c ∈ digits := by
  rw [decimal_eq] at h
  have hdigit := Nat.isDigit_of_mem_toDigits (by decide) (by decide) h
  simp only [Char.isDigit, Bool.and_eq_true, decide_eq_true_eq] at hdigit
  have hlow : 48 ≤ c.toNat := hdigit.1
  have hhigh : c.toNat ≤ 57 := hdigit.2
  rw [← Char.ofNat_toNat c]
  interval_cases c.toNat <;> decide

theorem digits_spec : ∀ c ∈ digits, Text.isDigit c = true ∧ c ∉ followers ∧
    Quote.isMark c = false ∧ (c != ':' && c != '\n') = true :=
  Text.forall_mem_of_all (by decide +kernel)

theorem calm_decimal (n : Nat) : Calm (decimal n) :=
  .of_forall fun c hc => (digits_spec c (mem_digits hc)).2.1

/-- A number is read up to what is no digit. -/
theorem afterNumber?_decimal (n : Nat) {c : Char} (hc : Text.isDigit c = false) (rest : Text) :
    LineShape.afterNumber? (decimal n ++ c :: rest) = some (c :: rest) := by
  have hdigits : ∀ d ∈ decimal n, Text.isDigit d = true :=
    fun d hd => (digits_spec d (mem_digits hd)).1
  cases hn : decimal n with
  | nil =>
    rw [decimal_eq] at hn
    exact absurd hn Nat.toDigits_ne_nil
  | cons d ds =>
    rw [hn] at hdigits
    obtain ⟨hd, hds⟩ := List.forall_mem_cons.mp hdigits
    rw [List.cons_append, LineShape.afterNumber?, if_pos hd, List.dropWhile_append_of_pos hds,
      List.dropWhile_cons_of_neg (by simp [hc])]

/-- The text is the start of a line of the corpus. -/
def IsPlace (start : Text) : Prop := ∃ i l c, start =
  "src/file".toList ++ decimal i ++ ".cpp:".toList ++ decimal l ++ ':' :: decimal c

theorem yields_place {σ : Type} (draw : StateM σ Nat) (i : Nat) : Yields (place draw i) IsPlace :=
  Yields.bind (P := fun _ => True) (fun _ => trivial) fun l _ =>
    Yields.bind (P := fun _ => True) (fun _ => trivial) fun c _ => yields_pure ⟨i, l, c, rfl⟩

namespace IsPlace

variable {start : Text} (h : IsPlace start)
include h

theorem joined_append {rest : Text} (hrest : Calm rest) : (start ++ rest).IsChain Joins := by
  obtain ⟨i, l, c, rfl⟩ := h
  have hcalm : Calm (decimal i ++ (".cpp:".toList ++ (decimal l ++ (':' :: decimal c ++ rest)))) :=
    (calm_decimal i).append <| .append (by decide) <| (calm_decimal l).append <|
      ((calm_decimal c).cons (by decide)).append hrest
  have hjoined := Corpus.joined_append (u := "src/file".toList) (by decide) hcalm
  simpa only [List.append_assoc] using hjoined

theorem not_isMark : ∀ c ∈ start, Quote.isMark c = false := by
  obtain ⟨i, l, c, rfl⟩ := h
  have hdecimal : ∀ n, ∀ c ∈ decimal n, Quote.isMark c = false := fun n c hc =>
    (digits_spec c (mem_digits hc)).2.2.1
  simp only [List.forall_mem_append, List.forall_mem_cons]
  exact ⟨⟨⟨⟨Quote.isMark_eq_false (by decide), hdecimal i⟩, Quote.isMark_eq_false (by decide)⟩,
    hdecimal l⟩, rfl, hdecimal c⟩

/-- **The place of a line is read**: the file, and then the line and the column in it. -/
theorem exists_afterFile? (rest : Text) : ∃ t,
    LineShape.afterFile? (start ++ ':' :: rest) = some t ∧ LineShape.afterPlace? t = some rest := by
  obtain ⟨i, l, c, rfl⟩ := h
  have hcolon : Text.isDigit ':' = false := by decide +kernel
  refine ⟨decimal l ++ ':' :: (decimal c ++ ':' :: rest), ?_, ?_⟩
  · have hname : ∀ d ∈ "rc/file".toList ++ decimal i ++ ".cpp".toList,
        (d != ':' && d != '\n') = true := by
      simp only [List.forall_mem_append]
      exact ⟨⟨Text.forall_mem_of_all (by decide),
        fun d hd => (digits_spec d (mem_digits hd)).2.2.2⟩, Text.forall_mem_of_all (by decide)⟩
    have hsplit : "src/file".toList ++ decimal i ++ ".cpp:".toList ++ decimal l ++
        ':' :: decimal c ++ ':' :: rest = 's' :: ("rc/file".toList ++ decimal i ++ ".cpp".toList ++
          ':' :: (decimal l ++ ':' :: (decimal c ++ ':' :: rest))) := by
      simp
    rw [hsplit, LineShape.afterFile?, if_neg (by decide +kernel),
      List.dropWhile_append_of_pos hname, List.dropWhile_cons_of_neg (by decide)]
    exact Text.after?_append [':'] _
  · have hcolumn : LineShape.afterColumn (':' :: (decimal c ++ ':' :: rest)) = ':' :: rest := by
      have hafter : Text.after? ":".toList (':' :: (decimal c ++ ':' :: rest)) =
        some (decimal c ++ ':' :: rest) := Text.after?_append [':'] _
      rw [LineShape.afterColumn, hafter, Option.bind_some, afterNumber?_decimal c hcolon]
      rfl
    rw [LineShape.afterPlace?, afterNumber?_decimal l hcolon, Option.bind_eq_bind,
      Option.bind_some, hcolumn]
    exact Text.after?_append [':'] _

theorem afterReport?_eq (rest : Text) : LineShape.afterReport? (start ++ ':' :: rest) =
    (LineShape.afterSpaces? rest).bind LineShape.afterSeverity? := by
  obtain ⟨t, hfile, hplace⟩ := h.exists_afterFile? rest
  rw [LineShape.afterReport?, hfile, Option.bind_eq_bind, Option.bind_some, hplace]
  rfl

theorem afterContext?_eq (rest : Text) : LineShape.afterContext? (start ++ ':' :: rest) =
    (LineShape.afterSpaces? rest).bind (Text.afterAny? LineShape.activities) := by
  obtain ⟨t, hfile, hplace⟩ := h.exists_afterFile? rest
  rw [LineShape.afterContext?, hfile, Option.bind_eq_bind, Option.bind_some, hplace]
  rfl

end IsPlace

/-! ### Diagnostics with one quote -/

/-- **The line is a diagnostic that quotes a function**, and nothing else. -/
structure Diagnoses (line body : Text) : Prop where
  all : ∃ n, Quote.all line = [⟨n, body⟩]
  joined : line.IsChain Joins
  fits : ∃ s ∈ Family.any.shapes, s.fits line = true
  found : Match.best? (Source.ofText body) = some ⟨.function, body.length⟩

section Quoted

variable {start lead body back : Text}

/-- A function between two marks, behind a place and some words. -/
theorem diagnoses_of_quoted (hstart : IsPlace start) (hlead : ∀ c ∈ lead, Quote.isMark c = false)
    (hback : ∀ c ∈ back, Quote.isMark c = false)
    (hcalm : Calm (':' :: (lead ++ '‘' :: (body ++ '’' :: back))))
    (hbody : Clear body)
    (hreads : Dialect.function.consume (plain body) = some body.length)
    (hfits : ∃ s ∈ Family.any.shapes,
      s.fits (start ++ ':' :: (lead ++ '‘' :: (body ++ '’' :: back))) = true) :
    Diagnoses (start ++ ':' :: (lead ++ '‘' :: (body ++ '’' :: back))) body where
  all := by
    have hne : body ≠ [] := by
      rintro rfl
      cases hreads
    have hfront : ∀ c ∈ start ++ ':' :: lead, Quote.isMark c = false :=
      List.forall_mem_append.mpr ⟨hstart.not_isMark, List.forall_mem_cons.mpr ⟨rfl, hlead⟩⟩
    have hall := Quote.all_between hfront (hbody '’' (by decide)) hne hback
    rw [List.append_assoc] at hall
    exact ⟨_, hall⟩
  joined := hstart.joined_append hcalm
  fits := hfits
  found := by
    have hwithin : body <:+: ':' :: (lead ++ '‘' :: (body ++ '’' :: back)) :=
      ⟨':' :: (lead ++ ['‘']), '’' :: back, by simp⟩
    have hplain := ofText_of_joined hbody ( List.IsChain.infix hcalm.1 hwithin)
    have hwhole : Reading.function.grammar.consume (Source.ofText body) =
        some (Source.ofText body).length := by
      rw [hplain, length_plain]
      exact hreads
    rw [Match.best?_of_function_whole hwhole, Source.length_ofText]

end Quoted

/-- The text of a call. -/
def call (argument : Text) : Text := "consume(".toList ++ argument ++ [')']

/-- The words in front of a call. -/
def callLead : Text := " error: no matching function for call to ".toList

/-- The words in front of an instantiation. -/
def instantiationLead : Text := "   In instantiation of ".toList

section Lines

variable {start argument t u : Text} (hstart : IsPlace start) (harg : IsType argument)
include hstart harg

/-- A line that reports a call. -/
theorem diagnoses_call : Diagnoses (start ++ ':' :: (callLead ++ '‘' :: (call argument ++ ['’'])))
    (call argument) := by
  have hlead : ∀ c ∈ callLead, Quote.isMark c = false := Quote.isMark_eq_false (by decide +kernel)
  refine diagnoses_of_quoted hstart hlead (by simp) ?_ ?_ ?_ ⟨.report, by simp [Family.shapes], ?_⟩
  · have hsplit : ':' :: (callLead ++ '‘' :: (call argument ++ ['’'])) =
        ':' :: (callLead ++ "‘consume".toList) ++ ('(' :: argument ++ ")’".toList) := by
      unfold call
      simp
    rw [hsplit]
    exact .append (by decide +kernel) (harg.calm_parenthesis.append (by decide))
  · have hopens : Clear "consume(".toList := by decide +kernel
    exact (hopens.append harg.clear).append (by decide)
  · have hplain : plain (call argument) = callGlyphs (plain argument) [] := by
      unfold call callGlyphs
      simp [baseClass]
    rw [hplain, consume_call harg.nested, ← hplain, length_plain]
  · change (LineShape.afterReport? _).isSome = true
    rw [hstart.afterReport?_eq]
    rfl

/-- A line that reports an instantiation. -/
theorem diagnoses_instantiation (ht : IsType t) (hu : IsType u) :
    Diagnoses (start ++ ':' :: (instantiationLead ++ '‘' :: (instantiation argument t u ++
      ['’', ':']))) (instantiation argument t u) := by
  have hlead : ∀ c ∈ instantiationLead, Quote.isMark c = false :=
    Quote.isMark_eq_false (by decide +kernel)
  have hback : ∀ c ∈ [':'], Quote.isMark c = false := Quote.isMark_eq_false (by decide)
  refine diagnoses_of_quoted hstart hlead hback ?_ ?_ ?_ ⟨.context, by simp [Family.shapes], ?_⟩
  · have hsplit : ':' :: (instantiationLead ++ '‘' :: (instantiation argument t u ++ ['’', ':'])) =
        ':' :: (instantiationLead ++ "‘void consume".toList) ++ ('(' :: argument ++
          (") [with T =".toList ++ (' ' :: t ++
            ("; U =".toList ++ (' ' :: u ++ "]’:".toList))))) := by
      unfold instantiation
      simp
    rw [hsplit]
    exact .append (by decide +kernel) <| harg.calm_parenthesis.append <|
      .append (by decide +kernel) <| ht.calm_space.append <| .append (by decide) <|
        hu.calm_space.append (by decide)
  · have hopens : Clear "void consume(".toList := by decide +kernel
    have hwith : Clear ") [with T = ".toList := by decide +kernel
    have hsecond : Clear "; U = ".toList := by decide +kernel
    exact (((((hopens.append harg.clear).append hwith).append ht.clear).append hsecond).append
      hu.clear).append (by decide)
  · have hplain : plain (instantiation argument t u) = instantiationGlyphs (plain argument)
        (plain ("T = ".toList ++ t ++ "; U = ".toList ++ u)) := by
      unfold instantiation instantiationGlyphs callGlyphs withGlyphs
      simp [baseClass]
    have hvalues : Nested Glyph.cls (plain ("T = ".toList ++ t ++ "; U = ".toList ++ u)) := by
      simp only [plain_append]
      exact (((nested_plain (by decide)).append ht.nested).append
        (nested_plain (by decide))).append hu.nested
    rw [hplain, consume_instantiation harg.nested hvalues, ← hplain, length_plain]
  · change (LineShape.afterContext? _).isSome = true
    rw [hstart.afterContext?_eq]
    rfl

end Lines

/-! ### The lines that are drawn -/

section Draws

variable {σ : Type} (draw : StateM σ Nat)

/-- **Every line of the corpus quotes one function.** -/
theorem yields_diagnosticLine (i : Nat) :
    Yields (diagnosticLine draw i) fun line => ∃ body, Diagnoses line body := by
  unfold diagnosticLine
  refine (yields_typeName draw 4).bind fun argument harg => ?_
  refine Yields.bind (P := fun _ => True) (fun _ => trivial) fun long _ => ?_
  by_cases hlong : long = true
  -- an instantiation, or a call
  · rw [if_pos hlong]
    refine (yields_typeName draw 3).bind fun t ht => (yields_typeName draw 2).bind fun u hu =>
      (yields_place draw i).bind fun start hstart => yields_pure ⟨instantiation argument t u, ?_⟩
    have hline : start ++ ":   In instantiation of ‘".toList ++ instantiation argument t u ++
        "’:".toList = start ++ ':' :: (instantiationLead ++ '‘' :: (instantiation argument t u ++
          ['’', ':'])) := by
      unfold instantiationLead
      simp
    rw [hline]
    exact diagnoses_instantiation hstart harg ht hu
  · rw [if_neg hlong]
    refine (yields_place draw i).bind fun start hstart => yields_pure ⟨call argument, ?_⟩
    have hline : start ++ ": error: no matching function for call to ‘consume(".toList ++
        argument ++ ")’".toList =
          start ++ ':' :: (callLead ++ '‘' :: (call argument ++ ['’'])) := by
      unfold callLead call
      simp
    rw [hline]
    exact diagnoses_call hstart harg

theorem yields_diagnosticLines (n : Nat) : ∀ i, Yields (diagnosticLinesFrom draw i n) fun lines =>
    ∀ line ∈ lines, ∃ body, Diagnoses line body := by
  induction n with
  | zero => exact fun i => yields_pure (by simp)
  | succ n ih =>
    refine fun i => (yields_diagnosticLine draw i).bind fun line hline => (ih (i + 1)).bind ?_
    exact fun lines hlines => yields_pure (List.forall_mem_cons.mpr ⟨hline, hlines⟩)

end Draws

/-! ### What is reported -/

namespace Diagnoses

variable {line body : Text} (h : Diagnoses line body)
include h

/-- No line of the corpus holds a marker. -/
theorem not_occursIn : ∀ m ∈ ({} : Config).markers, Text.occursIn m line = false := by
  have hmarkers : ∀ m ∈ ({} : Config).markers, ¬ m.IsChain Joins := by decide +kernel
  intro m hm
  rw [Bool.eq_false_iff]
  exact fun hoccurs =>
    hmarkers m hm ( List.IsChain.infix h.joined (Text.isInfix_of_occursIn hoccurs))

/-- The quote of the line is read to its end. -/
theorem exists_read (base : Int) (config : Config) (n : Nat) : ∃ e,
    Quote.read base config ⟨n, body⟩ = .ok ([e], []) ∧ e.found.reading = .function ∧
      e.matched = e.quote ∧ e.quote = ⟨base + n, base + (n + body.length : Nat)⟩ := by
  obtain ⟨e, he, -⟩ := Expression.exists_make h.found ⟨base + n, base + (n + body.length : Nat)⟩ n
    config (show ∀ k ∈ (none : Option Int), 1 ≤ k by simp)
  obtain ⟨hquote, hfound, -, -, -⟩ := Expression.of_make he
  refine ⟨e, ?_, by rw [hfound], ?_, hquote⟩
  · unfold Quote.read
    rw [h.found]
    simp only [Quote.stop, he, Nat.lt_irrefl, if_false]
    rfl
  · rw [Expression.matched, hfound, hquote]
    simp only [Match.extent, Extent.span, Span.shift, Span.mk.injEq]
    omega

variable {config : Config} (hshapes : config.shapes = Family.any.shapes)
  (hmarkers : config.markers = ({} : Config).markers)
include hshapes hmarkers

/-- **A line is accepted if it is long enough.** -/
theorem accepts_eq : config.accepts line = decide (config.width ≤ line.length) := by
  obtain ⟨s, hs, hfits⟩ := h.fits
  have hshape : config.shapes.any (·.fits line) = true :=
    List.any_eq_true.mpr ⟨s, hshapes ▸ hs, hfits⟩
  have hmarker : config.markers.any (fun m => Text.occursIn m line) = false := by
    rw [List.any_eq_false, hmarkers]
    exact fun m hm => Bool.eq_false_iff.mp (h.not_occursIn m hm)
  rw [Config.accepts, hshape, hmarker]
  simp

/-- **A line that is accepted gives its function**, and any other gives nothing. -/
theorem exists_report (base : Int) : ∃ q report, Quote.all line = [q] ∧
    examineLine line base config = .ok report ∧ report.notes = [] ∧
    (config.width ≤ line.length → ∃ e, report.expressions = [e] ∧ e.found.reading = .function ∧
      e.matched = e.quote ∧ e.quote = ⟨base + q.start, base + q.stop⟩) ∧
    (line.length < config.width → report.expressions = []) := by
  have haccepts := h.accepts_eq hshapes hmarkers
  obtain ⟨n, hall⟩ := h.all
  by_cases hwidth : config.width ≤ line.length
  · obtain ⟨e, hread, hfound⟩ := h.exists_read base config n
    refine ⟨_, ⟨⟨base, base + line.length⟩, [e], []⟩, hall, ?_, rfl, fun _ => ⟨e, rfl, hfound⟩,
      fun hlt => absurd hwidth (Int.not_le.mpr hlt)⟩
    have hparts : [(⟨n, body⟩ : Quote)].mapM (Quote.read base config) = .ok [([e], [])] := by
      rw [List.mapM_cons, hread, List.mapM_nil]
      rfl
    rw [examineLine, if_pos (haccepts.trans (decide_eq_true hwidth)), hall, hparts]
    rfl
  · refine ⟨_, ⟨⟨base, base + line.length⟩, [], []⟩, hall, ?_, rfl, fun hle => absurd hle hwidth,
      fun _ => rfl⟩
    rw [examineLine, if_neg]
    rw [haccepts, decide_eq_true_eq]
    exact hwidth

end Diagnoses

end Corpus

open Corpus

/-- **The whole corpus is accepted.** Whatever is drawn, a type is recognised to its end, and its
regions are no deeper than was asked for. A line leaves no note; if it is at least as long as the
width, it has one expression, a function that covers the only quote of the line, and otherwise it
has none. -/
theorem corpus_is_accepted {σ : Type} (draw : StateM σ Nat) (state : σ) :
    (∀ depth, let src := Source.ofText (typeName draw depth state).1
      (∃ m, Match.best? src = some m ∧ m.coversAll src = true) ∧
        ∃ rs, src.regions src.whole = .ok rs ∧ ∀ r ∈ rs, r.depth ≤ depth) ∧
    ∀ first count, ∀ line ∈ (diagnosticLinesFrom draw first count state).1,
      ∀ (base : Int) (config : Config), config.shapes = Family.any.shapes →
        config.markers = ({} : Config).markers →
        ∃ q report, Quote.all line = [q] ∧ examineLine line base config = .ok report ∧
          report.notes = [] ∧
          ((∃ e, report.expressions = [e] ∧ e.found.reading = .function ∧ e.matched = e.quote ∧
            e.quote = ⟨base + q.start, base + q.stop⟩) ↔ config.width ≤ line.length) ∧
          (line.length < config.width → report.expressions = []) := by
  refine ⟨fun depth => ?_, fun first count line hline base config hshapes hmarkers => ?_⟩
  · obtain ⟨ts, hts, htexts, hdepth⟩ := (yields_typeWithin draw depth state).exists_types
    have hplain := Types.ofText_listed hts false
    rw [Types.listed_of_texts htexts] at hplain
    refine ⟨Match.exists_coversAll (r := .type) ?_, ?_⟩
    · rw [hplain, length_plain]
      exact consume_type hts htexts
    · obtain ⟨rs, hrs, hle⟩ := Types.exists_regions hts htexts
      exact ⟨rs, hrs, fun r hr => (hle r hr).trans (Int.ofNat_le.mpr hdepth)⟩
  · obtain ⟨body, hbody⟩ := yields_diagnosticLines draw count first state line hline
    obtain ⟨q, report, hall, hreport, hnotes, hlong, hshort⟩ :=
      hbody.exists_report hshapes hmarkers base
    refine ⟨q, report, hall, hreport, hnotes, ⟨?_, hlong⟩, hshort⟩
    rintro ⟨e, he, -⟩
    by_contra hwidth
    rw [hshort (Int.not_le.mp hwidth)] at he
    cases he

/-- A line with nested arguments, at a width that it exceeds. -/
theorem corpus_is_accepted_instantiation :
    let draw : StateM (List Nat) Nat := fun ns => (ns.headD 0, ns.tail)
    let ns := [9000000, 0, 9000000, 1, 0, 7, 0, 4, 1, 0, 0, 0, 0, 0, 0, 6, 41, 6]
    let line := "src/file0.cpp:42:7:   In instantiation of ‘void consume(".toList ++
      "std::vector<std::map<unsigned long, std::size_t> >) [with T = int; U = ns::Bar]’:".toList
    line ∈ (diagnosticLinesFrom draw 0 1 ns).1 ∧
      ∃ report, examineLine line 5 { width := 60 } = .ok report ∧ report.notes = [] ∧
        ∃ e, report.expressions = [e] ∧ e.found.reading = .function ∧ e.matched = e.quote := by
  intro draw ns line
  have hline : line ∈ (diagnosticLinesFrom draw 0 1 ns).1 := by decide +kernel
  obtain ⟨q, report, -, hreport, hnotes, hiff, -⟩ :=
    (corpus_is_accepted draw ns).2 0 1 line hline 5 { width := 60 } rfl rfl
  obtain ⟨e, he, hfunction, hmatched, -⟩ := hiff.mpr (by decide +kernel)
  exact ⟨hline, report, hreport, hnotes, e, he, hfunction, hmatched⟩

end DiagLayout
