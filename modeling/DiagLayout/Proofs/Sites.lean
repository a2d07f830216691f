import DiagLayout.Proofs.Expressions
import DiagLayout.Proofs.Lines
import Mathlib.Data.List.Forall2

/-!
# Sites

A *site* is a quote that is recognised, with its place in the session: all that an expression is
made from but for the configuration and the level. The quotes of a line lie one behind the other,
marks included (`Quote.all_spec`), and so do the sites of all lines (`ordered_sitesFrom`). The text
of the session has the quoted text at their places (`standsIn_sitesFrom`).

`exists_examineLine`: looking through a line never fails, and gives one expression for each site.
-/

namespace DiagLayout

/-! ### The quotes of a line -/

namespace Quote

theorem lt_of_closingApostrophe? {before : Char} {t : Text} : ∀ {n : Nat},
    closingApostrophe? before t = some n → n < t.length := by
  fun_induction closingApostrophe? before t with
  | case1 => intro n h; cases h
  | case2 before t n _ ih =>
    intro m h
    obtain ⟨k, hk, rfl⟩ := Option.map_eq_some_iff.mp h
    have := ih hk
    rw [List.length_drop] at this
    rw [List.length_cons]
    omega
  | case3 => intro n h; cases h; exact Nat.succ_pos _
  | case4 before c t _ ih =>
    intro m h
    obtain ⟨k, hk, rfl⟩ := Option.map_eq_some_iff.mp h
    have := ih hk
    rw [List.length_cons]
    omega

/-- The quote stands inside the text `t`, whose first character is at `pos`, between two marks. -/
def StandsIn (pos : Nat) (t : Text) (q : Quote) : Prop :=
  ∃ u v : Text, t = u ++ (q.body ++ v) ∧ q.start = pos + u.length ∧ u ≠ [] ∧ q.body ≠ [] ∧ v ≠ []

theorem StandsIn.bounds {pos : Nat} {t : Text} {q : Quote} (h : q.StandsIn pos t) :
    pos < q.start ∧ q.start < q.stop ∧ q.stop < pos + t.length := by
  obtain ⟨u, v, rfl, hs, hu, hb, hv⟩ := h
  have h1 := List.length_pos_iff.mpr hu
  have h2 := List.length_pos_iff.mpr hb
  have h3 := List.length_pos_iff.mpr hv
  simp only [stop, List.length_append]
  omega

/-- Quotes inside a text, one behind the other with their marks. -/
structure Listed (pos : Nat) (t : Text) (qs : List Quote) : Prop where
  standsIn : ∀ q ∈ qs, q.StandsIn pos t
  apart : qs.Pairwise fun q q' => q.stop + 1 < q'.start

theorem Listed.nil (pos : Nat) (t : Text) : Listed pos t [] := ⟨by simp, .nil⟩

theorem Listed.of_drop {pos k : Nat} {t : Text} {qs : List Quote} (hk : k ≤ t.length)
    (h : Listed (pos + k) (t.drop k) qs) : Listed pos t qs := by
  refine ⟨fun q hq => ?_, h.apart⟩
  obtain ⟨u, v, ht, hs, -, hb, hv⟩ := h.standsIn q hq
  refine ⟨t.take k ++ u, v, ?_, ?_, ?_, hb, hv⟩
  · rw [List.append_assoc, ← ht, List.take_append_drop]
  · rw [List.length_append, List.length_take_of_le hk]; omega
  · have := (h.standsIn q hq).bounds.1
    intro hnil
    have hlen := congrArg List.length hnil
    rw [List.length_append, List.length_take_of_le hk, List.length_nil] at hlen
    omega

/-- A mark, the text it opens, and the quotes behind the closing mark. -/
theorem Listed.append {pos n : Nat} {c : Char} {t : Text} {qs : List Quote} (hn : n < t.length)
    (h : Listed (pos + n + 2) (t.drop (n + 1)) qs) :
    Listed pos (c :: t) (ofLength (pos + 1) n t ++ qs) := by
  have hrest : Listed pos (c :: t) qs :=
    .of_drop (k := n + 2) (by rw [List.length_cons]; omega) h
  unfold ofLength
  split_ifs with hz
  · exact hrest
  · have hlen : (t.take n).length = n := List.length_take_of_le (Nat.le_of_lt hn)
    have hq : StandsIn pos (c :: t) ⟨pos + 1, t.take n⟩ := by
      refine ⟨[c], t.drop n, ?_, rfl, List.cons_ne_nil _ _, ?_, ?_⟩
      · rw [List.take_append_drop]; rfl
      · show t.take n ≠ []
        exact List.length_pos_iff.mp (by omega)
      · exact List.length_pos_iff.mp (by rw [List.length_drop]; omega)
    refine ⟨fun q hmem => ?_, List.pairwise_cons.mpr ⟨fun q hmem => ?_, h.apart⟩⟩
    · rcases List.mem_cons.mp hmem with rfl | hmem
      · exact hq
      · exact hrest.standsIn q hmem
    · have := (h.standsIn q hmem).bounds.1
      simp only [stop, hlen]
      omega

theorem listed_allFrom (pos : Nat) (before : Option Char) (t : Text) :
    Listed pos t (allFrom pos before t) := by
  fun_induction allFrom pos before t with
  | case1 pos => exact .nil pos []
  | case2 => exact .nil _ _
  | case3 pos before t n hn ih =>
    obtain ⟨hlt, -⟩ := List.findIdx?_eq_some_iff_getElem.mp hn
    exact .append hlt ih
  | case4 pos before c t _ _ _ ih => exact .of_drop (k := 1) (by simp) ih
  | case5 pos before c t _ _ n hn ih => exact .append (lt_of_closingApostrophe? hn) ih
  | case6 pos before c t _ _ ih => exact .of_drop (k := 1) (by simp) ih

/-- **The quotes of a line** stand in it one behind the other. -/
theorem all_spec (line : Text) : Listed 0 line (all line) := listed_allFrom 0 none line

end Quote

/-! ### The sites of a line -/

/-- A quote that is recognised, and its place. -/
structure Site where
  quote : Span
  column : Nat
  body : Text
  found : Match

/-- The expression of a site under a configuration, folded at a level. -/
def Site.make (config : Config) (level : Option Int) (site : Site) : Except Fault Expression :=
  Expression.make site.body site.found site.quote site.column config level

/-- The site of a quote in a line at the offset `base`, if it is recognised. -/
def Quote.site? (base : Int) (q : Quote) : Option Site :=
  (Match.best? (Source.ofText q.body)).map fun m =>
    ⟨⟨base + q.start, base + q.stop⟩, q.start, q.body, m⟩

/-- The sites of a line at the offset `base`. -/
def lineSites (config : Config) (base : Int) (line : Text) : List Site :=
  if config.accepts line then (Quote.all line).filterMap (Quote.site? base) else []

/-- The expressions of the sites, all unfolded. -/
def Emitted (config : Config) : List Site → List Expression → Prop :=
  List.Forall₂ fun site e => site.make config none = .ok e

theorem Quote.exists_read (base : Int) (config : Config) (q : Quote) :
    ∃ r, q.read base config = .ok r ∧ Emitted config (q.site? base).toList r.1 := by
  unfold Quote.read Quote.site?
  cases hm : Match.best? (Source.ofText q.body) with
  | none => exact ⟨_, rfl, .nil⟩
  | some m =>
    obtain ⟨e, he, -⟩ := Expression.exists_make hm ⟨base + q.start, base + q.stop⟩ q.start config
      (show ∀ n ∈ (none : Option Int), 1 ≤ n by simp)
    exact ⟨_, congrArg (· >>= _) he, .cons he .nil⟩

theorem exists_mapM_read (base : Int) (config : Config) (qs : List Quote) :
    ∃ parts, qs.mapM (Quote.read base config) = .ok parts ∧
      Emitted config (qs.filterMap (Quote.site? base)) (parts.flatMap (·.1)) := by
  induction qs with
  | nil => exact ⟨[], rfl, .nil⟩
  | cons q qs ih =>
    obtain ⟨r, hr, hsites⟩ := q.exists_read base config
    obtain ⟨parts, hparts, hrest⟩ := ih
    refine ⟨r :: parts, by rw [List.mapM_cons, hr, hparts]; rfl, ?_⟩
    have hcons : (q :: qs).filterMap (Quote.site? base) =
        (q.site? base).toList ++ qs.filterMap (Quote.site? base) := by
      rw [List.filterMap_cons]
      cases q.site? base <;> rfl
    rw [hcons, List.flatMap_cons]
    exact List.rel_append hsites hrest

/-- **Looking through a line never fails**: every site of the line gives its expression. -/
theorem exists_examineLine (line : Text) (base : Int) (config : Config) :
    ∃ r, examineLine line base config = .ok r ∧
      Emitted config (lineSites config base line) r.expressions := by
  unfold examineLine lineSites
  split_ifs
  · obtain ⟨parts, hparts, hsites⟩ := exists_mapM_read base config (Quote.all line)
    exact ⟨_, congrArg (· >>= _) hparts, hsites⟩
  · exact ⟨_, rfl, .nil⟩

/-! ### Places in the text -/

/-- **The site stands in the text**: the text has the quote there, between two marks, and in the
column given. -/
structure Site.StandsIn (t : Text) (site : Site) : Prop where
  found_eq : Match.best? (Source.ofText site.body) = some site.found
  slice_eq : site.quote.slice t = site.body
  column_eq : site.column = t.column site.quote.start.toNat
  start_pos : 0 < site.quote.start
  stop_eq : site.quote.stop = site.quote.start + site.body.length
  stop_lt : site.quote.stop < t.length

theorem Text.slice_append (u w v : Text) :
    Text.slice (u ++ (w ++ v)) u.length (u.length + w.length) = w := by
  have hlen : (u ++ (w ++ v)).length = u.length + w.length + v.length := by
    simp only [List.length_append]; omega
  have h := Text.slice_natCast (u ++ (w ++ v)) u.length (u.length + w.length) (by omega) (by omega)
  rw [Int.natCast_add] at h
  rw [h, ← List.append_assoc, ← List.length_append, List.take_left, List.drop_left]

/-- A site of a quote stands in every text that has the line. -/
theorem Quote.standsIn_of_site? {pre line : Text} {q : Quote} {site : Site}
    (hpre : Text.EndsLine pre) (hline : '\n' ∉ line) (hq : q.StandsIn 0 line)
    (h : q.site? pre.length = some site) (more : Text) : site.StandsIn (pre ++ (line ++ more)) := by
  obtain ⟨u, v, rfl, hstart, hu, hb, hv⟩ := hq
  obtain ⟨m, hm, rfl⟩ := Option.map_eq_some_iff.mp h
  rw [Nat.zero_add] at hstart
  have hu' : '\n' ∉ u := fun hmem => hline (List.mem_append_left _ hmem)
  have htext : pre ++ (u ++ (q.body ++ v) ++ more) = pre ++ (u ++ (q.body ++ (v ++ more))) := by
    simp
  have hplace : (pre.length : Int) + u.length = ((pre ++ u).length : Int) := by simp
  have h1 := List.length_pos_iff.mpr hu
  have h3 := List.length_pos_iff.mpr hv
  refine ⟨hm, ?_, ?_, ?_, ?_, ?_⟩
  · rw [htext, Span.slice, Quote.stop, hstart]
    simp only
    rw [Int.natCast_add, ← Int.add_assoc, hplace, ← List.append_assoc]
    exact Text.slice_append _ _ _
  · have hnat : ((pre.length : Int) + q.start).toNat = pre.length + u.length := by omega
    rw [htext]
    simp only [hnat]
    rw [Text.column_append hpre hu', hstart]
  · simp only; omega
  · simp only [Quote.stop]; omega
  · simp only [Quote.stop, List.length_append]; omega

theorem standsIn_lineSites {config : Config} {pre line : Text} (hpre : Text.EndsLine pre)
    (hline : '\n' ∉ line) (more : Text) :
    ∀ site ∈ lineSites config pre.length line, site.StandsIn (pre ++ (line ++ more)) := by
  intro site hsite
  unfold lineSites at hsite
  split_ifs at hsite
  · obtain ⟨q, hq, hs⟩ := List.mem_filterMap.mp hsite
    exact q.standsIn_of_site? hpre hline ((Quote.all_spec line).standsIn q hq) hs more
  · cases hsite

theorem Text.trimEnd_isPrefix (c : Char) (t : Text) : t.trimEnd c <+: t := by
  rw [trimEnd, ← List.reverse_suffix, List.reverse_reverse]
  exact List.dropWhile_suffix _

/-- The sites of complete lines, the first of them at the offset `base`. -/
def sitesFrom (config : Config) (base : Int) : List Text → List Site
  | [] => []
  | line :: lines =>
    lineSites config base (line.trimEnd '\r') ++ sitesFrom config (base + line.length + 1) lines

theorem sitesFrom_append (config : Config) (lines lines' : List Text) : ∀ base : Int,
    sitesFrom config base (lines ++ lines') = sitesFrom config base lines ++
      sitesFrom config (base + (Text.ofLines lines).length) lines' := by
  induction lines with
  | nil => intro base; simp [sitesFrom]
  | cons line lines ih =>
    intro base
    rw [List.cons_append, sitesFrom, sitesFrom, ih, List.append_assoc]
    congr 3
    simp only [Text.ofLines_cons, List.length_append, List.length_cons]
    omega

/-- **The sites of complete lines stand in the text.** -/
theorem standsIn_sitesFrom (config : Config) {lines : List Text}
    (hl : ∀ line ∈ lines, '\n' ∉ line) (rest : Text) : ∀ {pre : Text}, Text.EndsLine pre →
      ∀ site ∈ sitesFrom config pre.length lines,
        site.StandsIn (pre ++ (Text.ofLines lines ++ rest)) := by
  induction lines with
  | nil => intro pre _ site hsite; cases hsite
  | cons line lines ih =>
    intro pre hpre site hsite
    have hline := hl line List.mem_cons_self
    have hbase : (pre.length : Int) + line.length + 1 =
        ((pre ++ (line ++ ['\n'])).length : Int) := by
      simp only [List.length_append, List.length_singleton]; omega
    rw [sitesFrom, hbase] at hsite
    rcases List.mem_append.mp hsite with hsite | hsite
    · obtain ⟨trimmed, htrim⟩ := Text.trimEnd_isPrefix '\r' line
      have hstands := standsIn_lineSites hpre
        (fun hmem => hline (htrim ▸ List.mem_append_left _ hmem))
        (trimmed ++ '\n' :: (Text.ofLines lines ++ rest)) site hsite
      rw [← List.append_assoc (line.trimEnd '\r'), htrim] at hstands
      simpa using hstands
    · have hstands := ih (fun l hmem => hl l (List.mem_cons_of_mem _ hmem))
        (Text.EndsLine.append_line pre line) site hsite
      simpa using hstands

/-! ### The order of the sites -/

/-- The sites lie one behind the other with their marks, between the offsets `lo` and `hi`. -/
structure Ordered (lo hi : Int) (sites : List Site) : Prop where
  bounds : ∀ site ∈ sites, lo < site.quote.start ∧ site.quote.stop < hi
  apart : sites.Pairwise fun site site' => site.quote.stop + 1 < site'.quote.start

theorem Ordered.append {lo mid mid' hi : Int} {sites sites' : List Site}
    (h : Ordered lo mid sites) (h' : Ordered mid' hi sites') (hlo : lo ≤ mid) (hmid : mid ≤ mid')
    (hhi : mid' ≤ hi) : Ordered lo hi (sites ++ sites') := by
  refine ⟨fun site hmem => ?_, List.pairwise_append.mpr ⟨h.apart, h'.apart, fun a ha b hb => ?_⟩⟩
  · rcases List.mem_append.mp hmem with hmem | hmem
    · have := h.bounds site hmem; omega
    · have := h'.bounds site hmem; omega
  · have h1 := h.bounds a ha
    have h2 := h'.bounds b hb
    omega

theorem ordered_lineSites (config : Config) (base : Int) (line : Text) :
    Ordered base (base + line.length) (lineSites config base line) := by
  have hall := Quote.all_spec line
  unfold lineSites
  split_ifs
  · constructor
    · intro site hsite
      obtain ⟨q, hq, hs⟩ := List.mem_filterMap.mp hsite
      obtain ⟨m, -, rfl⟩ := Option.map_eq_some_iff.mp hs
      have := (hall.standsIn q hq).bounds
      simp only; omega
    · refine List.pairwise_filterMap.mpr (hall.apart.imp fun {q q'} hlt site hs site' hs' => ?_)
      obtain ⟨m, -, rfl⟩ := Option.map_eq_some_iff.mp hs
      obtain ⟨m', -, rfl⟩ := Option.map_eq_some_iff.mp hs'
      simp only; omega
  · exact ⟨by simp, .nil⟩

/-- **The sites of complete lines are in order.** -/
theorem ordered_sitesFrom (config : Config) (lines : List Text) : ∀ base : Int,
    Ordered base (base + (Text.ofLines lines).length) (sitesFrom config base lines) := by
  induction lines with
  | nil => intro base; exact ⟨by simp [sitesFrom], by simp [sitesFrom]⟩
  | cons line lines ih =>
    intro base
    have hlen : base + ((Text.ofLines (line :: lines)).length : Int) =
        base + line.length + 1 + (Text.ofLines lines).length := by
      simp only [Text.ofLines_cons, List.length_append, List.length_cons]
      omega
    have htrim := (Text.trimEnd_isPrefix '\r' line).length_le
    rw [sitesFrom, hlen]
    exact (ordered_lineSites config base _).append (ih _) (by omega) (by omega) (by omega)

end DiagLayout
