import DiagLayout.Proofs.CorpusTypes
import DiagLayout.Proofs.Lines
import DiagLayout.Proofs.WrittenText
import Mathlib.Data.List.DropRight

/-!
# The width of a laid out type

A type of the corpus is laid out in lines that stay within the width, but for what may follow the
last name or group of a line, and for lines with a single name that is too long.

The arguments of a broken template stand one below the other, each in the column of the indent. An
argument is left whole if it fits from there on, closing bracket included, and is a line of its own;
otherwise it is broken again. So a line is a name, the start of a template up to its bracket, or a
type that fits, with a separator or closing brackets behind it (`Types.filledLines`).

The main result is `type_lines_within_width`.
-/

namespace DiagLayout

/-- What may follow the last name of a line. -/
def trailing : Text := [' ', ',', ';', '>', ')', ']', '\x7d']

/-- A line without what follows its last name. -/
def trimmed (line : Text) : Text := line.rdropWhile trailing.contains

/-- **The line stays within the width**, or is one of the names behind its indent. -/
def WithinWidth (width : Int) (names : List Text) (line : Text) : Prop :=
  ((trimmed line).length : Int) ≤ width ∨
    ∃ k, ∃ name ∈ names, trimmed line = List.replicate k ' ' ++ name

theorem WithinWidth.mono {width : Int} {names names' : List Text} {line : Text}
    (h : WithinWidth width names line) (hsub : names ⊆ names') : WithinWidth width names' line := by
  rcases h with hfits | ⟨k, name, hname, hline⟩
  · exact Or.inl hfits
  · exact Or.inr ⟨k, name, hsub hname, hline⟩

theorem trimmed_append {tail : Text} (h : tail ⊆ trailing) (line : Text) :
    trimmed (line ++ tail) = trimmed line := by
  induction tail using List.reverseRecOn with
  | nil => rw [List.append_nil]
  | append_singleton tail c ih =>
    obtain ⟨htail, hc⟩ := List.append_subset.mp h
    rw [← List.append_assoc, trimmed, List.rdropWhile_concat_pos]
    · exact ih htail
    · exact List.contains_iff_mem.mpr (hc (List.mem_singleton_self c))

theorem withinWidth_of_length {width : Int} {line tail : Text} (names : List Text)
    (hfits : (line.length : Int) ≤ width) (htail : tail ⊆ trailing) :
    WithinWidth width names (line ++ tail) := by
  have hle : (trimmed line).length ≤ line.length := (List.rdropWhile_prefix _ _).length_le
  left
  rw [trimmed_append htail]
  omega

theorem withinWidth_of_name {width : Int} {names : List Text} {name tail : Text} (k : Nat)
    (hname : name ∈ names) (hlast : ∃ c ∈ name.getLast?, c ∉ trailing) (htail : tail ⊆ trailing) :
    WithinWidth width names (List.replicate k ' ' ++ name ++ tail) := by
  obtain ⟨c, hc, hnot⟩ := hlast
  obtain ⟨init, rfl⟩ := List.getLast?_eq_some_iff.mp hc
  refine Or.inr ⟨k, _, hname, ?_⟩
  rw [trimmed_append htail, trimmed, ← List.append_assoc, List.rdropWhile_concat_neg]
  rwa [List.contains_iff_mem]

namespace Corpus

/-! ### The names of a type -/

namespace Types

/-- The names in the types, those of templates with the bracket behind them. -/
def names : Types → List Text
  | nil => []
  | leaf name rest => name :: rest.names
  | template name args _ rest => (name ++ ['<']) :: (args.names ++ rest.names)

end Types

theorem not_symbol_of_mem_trailing : ∀ c ∈ trailing, baseClass c ≠ .symbol := by
  simp only [trailing, List.forall_mem_cons, List.not_mem_nil, false_imp_iff, implies_true,
    and_true]
  decide

theorem NameLike.last {name : Text} (h : NameLike name) : ∃ c ∈ name.getLast?, c ∉ trailing := by
  obtain ⟨c, hc, hcls⟩ := Option.map_eq_some_iff.mp h.2.2
  exact ⟨c, hc, fun hmem => not_symbol_of_mem_trailing c hmem hcls⟩

/-! ### The forest of a name -/

theorem flatMap_glyphs_tokensFrom (p : Nat) (gs : List Glyph) :
    (tokensFrom p gs).flatMap Token.glyphs = gs := by
  have hdrop : gs <+: (List.replicate p default ++ gs).drop p := by simp
  exact (tiled_tokensFrom gs.length p gs (Nat.le_refl _) hdrop).2

theorem laid_of_prepend {src : Source} {f : Forest Token} {j : Nat} {ts : List Token} :
    ∀ {i : Nat}, Laid src i (prepend ts f) j →
      Laid src (i + (ts.flatMap Token.glyphs).length) f j := by
  induction ts with
  | nil => exact fun h => h
  | cons t ts ih =>
    intro i h
    rw [List.flatMap_cons, List.length_append, ← Nat.add_assoc]
    cases h with
    | item ht hb hr =>
      have hstop : t.stop = i + t.glyphs.length := by rw [Token.stop, ht.start_eq]
      exact hstop ▸ ih hr

theorem written_prepend (page : Page) (top : Frame) (f : Forest Token) {ts : List Token}
    (hts : ∀ t ∈ ts, t.kind ≠ .separator) : ∀ col : Int,
      (prepend ts f).written page top col = Glyph.text (ts.flatMap Token.glyphs) ++
        f.written page top (col + (ts.flatMap Token.glyphs).length) := by
  induction ts with
  | nil =>
    intro col
    simp [prepend, Glyph.text]
  | cons t ts ih =>
    intro col
    obtain ⟨ht, hts⟩ := List.forall_mem_cons.mp hts
    change (Forest.item t (prepend ts f)).written page top col = _
    rw [Forest.written, if_neg ht, Token.past, if_neg ht, ih hts, List.flatMap_cons,
      List.length_append]
    simp [Glyph.text, Token.text, Int.add_assoc]

theorem laid_of_name {src : Source} {f : Forest Token} {name : Text} {p j : Nat}
    (h : Laid src p (prepend (tokensFrom p (plain name)) f) j) :
    Laid src (p + name.length) f j := by
  have hlaid := laid_of_prepend h
  rwa [flatMap_glyphs_tokensFrom, length_plain] at hlaid

theorem written_name {name : Text} (hname : NameLike name) (p : Nat) (page : Page) (top : Frame)
    (f : Forest Token) (col : Int) :
    (prepend (tokensFrom p (plain name)) f).written page top col =
      name ++ f.written page top (col + name.length) := by
  rw [written_prepend page top f (fun t ht => ?_), flatMap_glyphs_tokensFrom, length_plain,
    text_plain]
  rcases (hname.kind_of_mem ht).2 with hk | hk <;> simp [hk]

theorem Types.flatMap_glyphs_forest {ts : Types} (h : ts.Formed) {gap : Bool}
    (hgap : gap = true → endsInBracket ts.texts = true) (p : Nat) :
    (ts.forest p gap).word.flatMap Token.glyphs = plain (ts.listed gap) := by
  have hcut := tokensFrom_listed h hgap (w := plain ['>'] ++ []) (Or.inl ⟨[], rfl⟩) p
  have hglyphs := congrArg (List.flatMap Token.glyphs) hcut
  rw [flatMap_glyphs_tokensFrom, List.flatMap_append, flatMap_glyphs_tokensFrom] at hglyphs
  exact (List.append_cancel_right hglyphs).symm

/-! ### The lines of a type -/

/-- The text is made of complete lines, each of them within the width. -/
def FilledLines (width : Int) (names : List Text) (t : Text) : Prop :=
  ∃ lines, t = Text.ofLines lines ∧ ∀ line ∈ lines, '\n' ∉ line ∧ WithinWidth width names line

namespace FilledLines

variable {width : Int} {names : List Text}

theorem nil : FilledLines width names [] := ⟨[], rfl, by simp⟩

theorem append {t u : Text} (ht : FilledLines width names t) (hu : FilledLines width names u) :
    FilledLines width names (t ++ u) := by
  obtain ⟨lines, rfl, hlines⟩ := ht
  obtain ⟨lines', rfl, hlines'⟩ := hu
  exact ⟨lines ++ lines', by rw [Text.ofLines_append],
    List.forall_mem_append.mpr ⟨hlines, hlines'⟩⟩

theorem cons {line t : Text} (hopen : '\n' ∉ line) (hline : WithinWidth width names line)
    (ht : FilledLines width names t) : FilledLines width names (line ++ '\n' :: t) := by
  obtain ⟨lines, rfl, hlines⟩ := ht
  exact ⟨line :: lines, by rw [Text.ofLines_cons],
    List.forall_mem_cons.mpr ⟨⟨hopen, hline⟩, hlines⟩⟩

theorem mono {names' : List Text} {t : Text} (h : FilledLines width names t)
    (hsub : names ⊆ names') : FilledLines width names' t := by
  obtain ⟨lines, rfl, hlines⟩ := h
  exact ⟨lines, rfl, fun line hl => ⟨(hlines line hl).1, (hlines line hl).2.mono hsub⟩⟩

/-- The lines of a text are those of the text with a line feed at its end. -/
theorem exists_splitLines {t : Text} (h : FilledLines width names (t ++ ['\n'])) :
    ∃ lines rest, splitLines t = (lines, rest) ∧
      ∀ line ∈ lines ++ [rest], WithinWidth width names line := by
  obtain ⟨all, hall, hwithin⟩ := h
  rcases hsplit : splitLines t with ⟨lines, rest⟩
  obtain ⟨ht, hlines, hrest⟩ := splitLines_spec hsplit
  have hopen : ∀ line ∈ lines ++ [rest], '\n' ∉ line :=
    List.forall_mem_append.mpr ⟨hlines, by simpa using hrest⟩
  have heq : Text.ofLines all = Text.ofLines (lines ++ [rest]) := by
    rw [← hall, ht]
    simp
  have hsame : all = lines ++ [rest] := by
    have h1 : splitLines (Text.ofLines all ++ []) = (all, []) :=
      splitLines_ofLines (fun line hl => (hwithin line hl).1) List.not_mem_nil
    have h2 : splitLines (Text.ofLines (lines ++ [rest]) ++ []) = (lines ++ [rest], []) :=
      splitLines_ofLines hopen List.not_mem_nil
    rw [heq, h2] at h1
    exact (Prod.mk.inj h1).1.symm
  exact ⟨lines, rest, rfl, fun line hl => (hwithin line (hsame ▸ hl)).2⟩

end FilledLines

theorem newline_notMem_of_subset {t : Text} (h : t ⊆ trailing) : '\n' ∉ t :=
  fun hmem => absurd (h hmem) (by decide)

theorem newline_notMem_name : ∀ name ∈ leaves ++ templates, '\n' ∉ name :=
  fun name h => (clean_names name h).1 '\n' (by decide)

section Lines

variable {src : Source} {page : Page} {unit : Nat}

/-- What is written behind a type: the rest of its line, and the lines of the other types. -/
theorem Types.exists_separated (page : Page) {rest : Types} {q j k : Nat} {gap : Bool}
    {top : Frame} {trail : Text}
    (hl : Laid src q (rest.separated q (rest.forest (q + 2) gap)) j) (hindent : top.indent = k)
    (htop : top.broken = true ∨ rest.isNil = true) (htrail : trail ⊆ trailing)
    (ih : ¬ rest.isNil = true → top.broken = true → Laid src (q + 2) (rest.forest (q + 2) gap) j →
      FilledLines page.width rest.names (List.replicate k ' ' ++
        ((rest.forest (q + 2) gap).written page top k ++ (trail ++ ['\n'])))) (col : Int) :
    ∃ tail u, (rest.separated q (rest.forest (q + 2) gap)).written page top col ++
        (trail ++ ['\n']) = tail ++ '\n' :: u ∧
      tail ⊆ trailing ∧ FilledLines page.width rest.names u := by
  by_cases hnil : rest.isNil = true
  · refine ⟨trail, [], ?_, htrail, .nil⟩
    rw [separated, if_pos hnil]
    rfl
  · have hbroken : top.broken = true := htop.resolve_right hnil
    rw [separated, if_neg hnil] at hl ⊢
    cases hl with
    | item ht hb hr =>
      refine ⟨[',', ' '], _, ?_, by decide, ih hnil hbroken hr⟩
      have hpast : (comma q).past top col = k := by
        rw [Token.past, if_pos (by rfl), Frame.resume, if_pos hbroken, hindent]
      rw [Forest.written, if_pos (by rfl), hpast, Frame.breakText_of_broken hbroken hindent,
        Token.text, comma, text_plain]
      simp

/-- **The lines of a template**: one line if it fits, and otherwise its name with the bracket and
the lines of its arguments, one unit further in. -/
theorem Types.filledLines_template (hatoms : page.atoms = []) (hunit : page.unit = unit)
    {name : Text} {args : Types} {g b : Bool} {q k : Nat} {top frame : Frame} {c : Token}
    {tail : Text} (hname : name ∈ templates) (hargs : args.Formed) (hne : ¬ args.isNil = true)
    (hg : g = true → endsInBracket args.texts = true)
    (hc : c = closing (q + 1 + (args.listed g).length) b)
    (hframe : frame = page.frame top (k + name.length) (opening q) c)
    (hl : Laid src (q + 1) (args.forest (q + 1) g) c.start) (hindent : top.indent = k)
    (htail : tail ⊆ trailing)
    (ih : ∀ {trail : Text}, frame.indent = (k + unit : Nat) → frame.broken = true →
      trail ⊆ trailing → FilledLines page.width args.names (List.replicate (k + unit) ' ' ++
        ((args.forest (q + 1) g).written page frame (k + unit : Nat) ++ (trail ++ ['\n'])))) :
    FilledLines page.width ((name ++ ['<']) :: args.names) (List.replicate k ' ' ++ (name ++
      ((opening q).text ++ (frame.breakText ++ ((args.forest (q + 1) g).written page frame
        (frame.resume (k + name.length + 1)) ++ (c.text ++ (tail ++ ['\n']))))))) := by
  have hopen := newline_notMem_name name (List.mem_append_right _ hname)
  have hotext : (opening q).text = ['<'] := text_plain _
  have hctext : c.text = '>' :: gapText b := by rw [hc]; exact text_plain _
  have hbehind : gapText b ++ tail ⊆ trailing := by
    refine List.append_subset.mpr ⟨?_, htail⟩
    cases b <;> decide
  have hbroken_iff := Page.frame_broken_iff hatoms top (k + name.length) (opening q) c
  have hstart : c.start = q + 1 + (args.listed g).length := by rw [hc]; rfl
  rw [← hframe, hstart, show (opening q).stop = q + 1 from rfl,
    show (opening q).glyphs.length = 1 from rfl] at hbroken_iff
  by_cases hb : frame.broken = true
  · -- the arguments go one below the other
    have hindent' : frame.indent = (k + unit : Nat) := by
      rw [hframe] at hb ⊢
      rw [Page.frame, Frame.indent_enter, ← Page.frame, if_pos hb, hindent, hunit]
      omega
    have hline : WithinWidth page.width ((name ++ ['<']) :: args.names)
        (List.replicate k ' ' ++ (name ++ ['<']) ++ []) :=
      withinWidth_of_name k List.mem_cons_self ⟨'<', by simp, by decide⟩ (List.nil_subset _)
    have hclose : '>' :: (gapText b ++ tail) ⊆ trailing :=
      List.cons_subset.mpr ⟨by decide, hbehind⟩
    have hlines := (ih hindent' hb hclose).mono (List.subset_cons_self (name ++ ['<']) _)
    have hall := FilledLines.cons (by simp [hopen]) hline hlines
    rw [Frame.resume, if_pos hb, Frame.breakText_of_broken hb hindent', hindent', hotext, hctext]
    simpa only [List.append_assoc, List.nil_append, List.cons_append] using hall
  · -- the template is a line of its own
    have hwhole := Bool.eq_false_iff.mpr hb
    obtain ⟨x, t, hx, -⟩ := exists_head_listed hargs hne g
    have hlength : 0 < (args.listed g).length := by rw [hx]; exact Nat.succ_pos _
    have hfits : (k : Int) + name.length + 1 + (args.listed g).length + 1 ≤ page.width := by
      by_contra hcon
      exact hb (hbroken_iff.mpr ⟨by omega, by push_cast; omega⟩)
    obtain ⟨hwritten, -⟩ := hl.written_of_room hatoms (k + name.length + 1) hwhole (by omega)
    have hline : WithinWidth page.width ((name ++ ['<']) :: args.names)
        (List.replicate k ' ' ++ (name ++ '<' :: args.listed g ++ ['>']) ++
          (gapText b ++ tail)) := by
      refine withinWidth_of_length _ ?_ hbehind
      simp only [List.length_append, List.length_replicate, List.length_cons, List.length_nil]
      push_cast
      omega
    have hinner : '\n' ∉ args.listed g := (clean_listed hargs g).1 '\n' (by decide)
    have hall := FilledLines.cons
      (by simp [hopen, hinner, newline_notMem_of_subset hbehind]) hline .nil
    rw [Frame.resume_of_whole hwhole, hwritten, flatMap_glyphs_forest hargs hg, text_plain,
      Frame.breakText_of_whole hwhole, hotext, hctext]
    simpa only [List.append_assoc, List.nil_append, List.cons_append] using hall

/-- **The lines of types one below the other.** -/
theorem Types.filledLines (hatoms : page.atoms = []) (hunit : page.unit = unit) {ts : Types} :
    ts.Formed → ¬ ts.isNil = true → ∀ {p j k : Nat} {gap : Bool} {top : Frame} {trail : Text},
      Laid src p (ts.forest p gap) j → top.indent = k →
      top.broken = true ∨ ts.texts.length = 1 → trail ⊆ trailing →
      FilledLines page.width ts.names (List.replicate k ' ' ++
        ((ts.forest p gap).written page top k ++ (trail ++ ['\n']))) := by
  induction ts with
  | nil => exact fun _ hne => absurd rfl hne
  | leaf name rest ih =>
    rintro ⟨hname, hrest⟩ - p j k gap top trail hl hindent htop htrail
    have hmem : name ∈ leaves ++ templates := List.mem_append_left _ hname
    have htop' : top.broken = true ∨ rest.isNil = true := by
      refine htop.imp_right fun hone => texts_eq_nil_iff.mp ?_
      simpa [texts] using hone
    rw [forest] at hl
    obtain ⟨tail, u, heq, htail, hu⟩ := exists_separated page (laid_of_name hl) hindent htop' htrail
      (fun hnil hbroken hl => ih hrest hnil hl hindent (Or.inl hbroken) htrail) (k + name.length)
    have hopen : '\n' ∉ List.replicate k ' ' ++ name ++ tail := by
      simp [newline_notMem_name name hmem, newline_notMem_of_subset htail]
    have hline : WithinWidth page.width (leaf name rest).names
        (List.replicate k ' ' ++ name ++ tail) :=
      withinWidth_of_name k List.mem_cons_self (nameLike_of_mem name hmem).last htail
    have hall := FilledLines.cons hopen hline (hu.mono (List.subset_cons_self _ _))
    rw [forest, written_name (nameLike_of_mem name hmem), List.append_assoc, heq]
    simpa only [List.append_assoc] using hall
  | template name args g rest iha ihr =>
    rintro ⟨hname, hne, hg, hargs, hrest⟩ - p j k gap top trail hl hindent htop htrail
    have hmem : name ∈ leaves ++ templates := List.mem_append_right _ hname
    have hne' : ¬ args.isNil = true := fun hnil => hne (eq_nil_of_isNil hnil)
    have htop' : top.broken = true ∨ rest.isNil = true := by
      refine htop.imp_right fun hone => texts_eq_nil_iff.mp ?_
      simpa [texts] using hone
    rw [forest] at hl ⊢
    rw [written_name (nameLike_of_mem name hmem), Forest.written]
    cases laid_of_name hl with
    | group ho hob hi hc hcb hr =>
      obtain ⟨tail, u, heq, htail, hu⟩ := exists_separated page hr hindent htop' htrail
        (fun hnil hbroken hl => ihr hrest hnil hl hindent (Or.inl hbroken) htrail) _
      have hfirst := filledLines_template (q := p + name.length) hatoms hunit hname hargs hne' hg
        rfl rfl hi hindent htail fun hindent' hbroken htrail =>
          iha hargs hne' hi hindent' (Or.inl hbroken) htrail
      have hall := FilledLines.append
        (hfirst.mono (List.cons_subset_cons _ (List.subset_append_left _ rest.names)))
        (hu.mono (List.subset_cons_of_subset _ (List.subset_append_right args.names _)))
      simp only [List.append_assoc, List.singleton_append] at hall ⊢
      rw [heq]
      exact hall

end Lines

/-! ### The layout of a type -/

/-- The forest of a type covers all of it. -/
theorem Types.laid_forest {ts : Types} (h : ts.Formed) {src : Source}
    (hsrc : src = Source.ofText (ts.listed false)) :
    (ts.forest 0 false).word = src.tokens src.whole ∧
      Laid src 0 (ts.forest 0 false) src.length := by
  rw [ofText_listed h] at hsrc
  have hwindow : src.window src.whole = plain (ts.listed false) := by
    rw [hsrc, Source.window, Source.whole]
    simp
  have hword : (ts.forest 0 false).word = src.tokens src.whole := by
    have hcut : tokensFrom 0 (plain (ts.listed false) ++ []) = _ :=
      tokensFrom_listed h (by simp) (Or.inr ⟨rfl, rfl⟩) 0
    rw [List.append_nil] at hcut
    rw [Source.tokens, hwindow, Source.whole]
    simpa [tokensFrom] using hcut.symm
  have htiled : Tiled src 0 ((ts.forest 0 false).word ++ []) := by
    rw [List.append_nil, hword]
    exact tiled_tokens src src.whole
  obtain ⟨j, hl, -, hj⟩ := exists_laid_of_tiled (fits_forest h 0 false) htiled
  refine ⟨hword, ?_⟩
  rw [hword, flatMap_glyphs_tokens, hwindow] at hj
  rwa [hj, Nat.zero_add, ← hsrc] at hl

/-- **The layout of a single type** is made of lines within the width. -/
theorem Types.exists_filled {ts : Types} (h : ts.Formed) {t : Text} (ht : ts.texts = [t])
    (config : Config) (indent : Nat) :
    ∃ is, fillType (Source.ofText t) (Source.ofText t).whole indent config [] = .ok is ∧
      FilledLines config.width ts.names
        (List.replicate indent ' ' ++ overlay t is [] ++ ['\n']) := by
  have hne : ¬ ts.isNil = true := by
    rw [← texts_eq_nil_iff, ht]
    exact List.cons_ne_nil _ _
  obtain ⟨hword, hl⟩ := laid_forest h (congrArg Source.ofText (listed_of_texts ht).symm)
  let page : Page := ⟨[], config.width, config.indent⟩
  have hlayout := layOut_eq_breaks page (by simp [page]) (Nat.le_refl _) hword hl
    (Forest.agrees_nil _) indent
  have hwritten := hl.overlay_eq_written (rfl : page.atoms = []) ⟨false, indent⟩ indent
  have hunit : page.unit = config.indent.toNat :=
    (Int.toNat_of_nonneg (Int.le_of_lt config.indent_pos)).symm
  have hfilled : FilledLines page.width ts.names (List.replicate indent ' ' ++
      ((ts.forest 0 false).written page ⟨false, indent⟩ indent ++ ([] ++ ['\n']))) :=
    filledLines rfl hunit h hne hl rfl (Or.inr (by rw [ht]; rfl)) (List.nil_subset _)
  rw [← hwritten, Source.text_ofText, List.nil_append, ← List.append_assoc] at hfilled
  exact ⟨_, hlayout, hfilled⟩

/-- **The width of a laid out type.** Whatever is drawn, a type of the corpus is laid out. Each line
stays within the width, not counting the separators and closing brackets at its end, or is a single
name of the type behind its indent. -/
theorem type_lines_within_width {σ : Type} (draw : StateM σ Nat) (depth : Nat) (state : σ)
    (config : Config) (indent : Nat) :
    let t := (typeName draw depth state).1
    let src := Source.ofText t
    ∃ (ts : Types) (is : List Instruction) (lines : List Text) (rest : Text),
      ts.Formed ∧ ts.texts = [t] ∧ fillType src src.whole indent config [] = .ok is ∧
      splitLines (List.replicate indent ' ' ++ overlay t is []) = (lines, rest) ∧
      ∀ line ∈ lines ++ [rest], WithinWidth config.width ts.names line := by
  intro t src
  obtain ⟨ts, -, hformed, htexts⟩ := yields_typeName draw depth state .nil trivial
  obtain ⟨is, hfill, hfilled⟩ := Types.exists_filled hformed htexts config indent
  obtain ⟨lines, rest, hsplit, hwithin⟩ := hfilled.exists_splitLines
  exact ⟨ts, is, lines, rest, hformed, htexts, hfill, hsplit, hwithin⟩

end Corpus

end DiagLayout
