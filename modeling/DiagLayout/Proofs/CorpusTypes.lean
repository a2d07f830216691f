import DiagLayout.Corpus
import DiagLayout.Proofs.BreakSites
import DiagLayout.Proofs.FoldedText
import DiagLayout.Proofs.Spellings
import Mathlib.Data.List.Chain

/-!
# The types of the corpus

`Corpus.Types` are types one after the other, as they stand between the brackets of a template.

* `Corpus.yields_typeWithin`: every type of the corpus is one of them, whatever is drawn, with at
  most as many brackets around each other as were asked for;
* `Corpus.Types.ofText_listed`: no spelling starts in it, so every character plays its own part;
* `Corpus.Types.tokensFrom_listed`: its tokens are those of a forest.
-/

namespace DiagLayout.Corpus

/-- Types one after the other. A template has its arguments and, with a gap, a space behind them. -/
inductive Types where
  | nil
  | leaf (name : Text) (rest : Types)
  | template (name : Text) (args : Types) (gap : Bool) (rest : Types)

namespace Types

/-- The texts of the types. -/
def texts : Types → List Text
  | nil => []
  | leaf name rest => name :: rest.texts
  | template name args gap rest => (name ++ arguments args.texts gap) :: rest.texts

/-- **Types as the corpus has them**: with the names of the corpus, and with gaps only between two
closing brackets. -/
def Formed : Types → Prop
  | nil => True
  | leaf name rest => name ∈ leaves ∧ rest.Formed
  | template name args gap rest => name ∈ templates ∧ args ≠ nil ∧
    (gap = true → endsInBracket args.texts = true) ∧ args.Formed ∧ rest.Formed

/-- The number of brackets around each other. -/
def depth : Types → Nat
  | nil => 0
  | leaf _ rest => rest.depth
  | template _ args _ rest => max (args.depth + 1) rest.depth

end Types

/-! ### What is drawn -/

section Draws

variable {σ α β : Type}

/-- All that the action can give, whatever the state it starts in. -/
def Yields (action : StateM σ α) (P : α → Prop) : Prop := ∀ s, P (action s).1

theorem Yields.bind {action : StateM σ α} {next : α → StateM σ β} {P : α → Prop} {Q : β → Prop}
    (h : Yields action P) (hnext : ∀ a, P a → Yields (next a) Q) : Yields (action >>= next) Q :=
  fun s => hnext _ (h s) _

theorem yields_pure {a : α} {P : α → Prop} (h : P a) : Yields (pure a : StateM σ α) P :=
  fun _ => h

variable (draw : StateM σ Nat)

theorem yields_choose {ts : List Text} (h : ts ≠ []) : Yields (choose draw ts) (· ∈ ts) := by
  refine Yields.bind (P := fun _ => True) (fun _ => trivial) fun n _ => yields_pure ?_
  have hlt : n % ts.length < ts.length := Nat.mod_lt _ (List.length_pos_iff.mpr h)
  rw [List.getD_eq_getElem?_getD, List.getElem?_eq_getElem hlt]
  exact List.getElem_mem hlt

theorem yields_between (low high : Nat) : Yields (between draw low high) (low ≤ ·) :=
  Yields.bind (P := fun _ => True) (fun _ => trivial) fun _ _ => yields_pure (Nat.le_add_right _ _)

/-- The text is a type: types as the corpus has them may follow it. -/
def IsType (t : Text) : Prop :=
  ∀ rest : Types, rest.Formed → ∃ ts : Types, ts ≠ .nil ∧ ts.Formed ∧ ts.texts = t :: rest.texts

/-- The text is a type with at most `d` brackets around each other. -/
def IsTypeWithin (d : Nat) (t : Text) : Prop :=
  ∀ rest : Types, rest.Formed → ∃ ts : Types, ts ≠ .nil ∧ ts.Formed ∧ ts.texts = t :: rest.texts ∧
    ts.depth ≤ max d rest.depth

theorem IsTypeWithin.isType {d : Nat} {t : Text} (h : IsTypeWithin d t) : IsType t := by
  intro rest hrest
  obtain ⟨ts, hne, hts, htexts, -⟩ := h rest hrest
  exact ⟨ts, hne, hts, htexts⟩

theorem isTypeWithin_leaf {t : Text} (h : t ∈ leaves) (d : Nat) : IsTypeWithin d t :=
  fun rest hrest => ⟨.leaf t rest, by simp, ⟨h, hrest⟩, rfl, Nat.le_max_right _ _⟩

theorem isTypeWithin_template {d : Nat} {name : Text} {args : Types} {gap : Bool}
    (h : name ∈ templates) (hne : args ≠ .nil) (hargs : args.Formed) (hd : args.depth ≤ d)
    (hgap : gap = true → endsInBracket args.texts = true) :
    IsTypeWithin (d + 1) (name ++ arguments args.texts gap) := by
  refine fun rest hrest =>
    ⟨.template name args gap rest, by simp, ⟨h, hne, hgap, hargs, hrest⟩, rfl, ?_⟩
  rw [Types.depth]
  omega

theorem yields_times {action : StateM σ Text} {d : Nat} (h : Yields action (IsTypeWithin d))
    (n : Nat) : Yields (times action n) fun l => ∃ ts : Types, ts.Formed ∧ ts.texts = l ∧
      (0 < n → ts ≠ .nil) ∧ ts.depth ≤ d := by
  induction n with
  | zero =>
    exact yields_pure ⟨.nil, trivial, rfl, fun h => absurd h (Nat.lt_irrefl 0), Nat.zero_le d⟩
  | succ n ih =>
    refine h.bind fun t ht => ih.bind ?_
    rintro _ ⟨rest, hrest, rfl, -, hd⟩
    obtain ⟨ts, hne, hts, htexts, hle⟩ := ht rest hrest
    exact yields_pure ⟨ts, hts, htexts, fun _ => hne, by omega⟩

/-- **What the corpus draws is a type** with at most as many brackets around each other as were
asked for. -/
theorem yields_typeWithin (depth : Nat) : Yields (typeName draw depth) (IsTypeWithin depth) := by
  have hleaf : ∀ d, Yields (choose draw leaves) (IsTypeWithin d) :=
    fun d s => isTypeWithin_leaf (yields_choose draw (by simp [leaves]) s) d
  induction depth with
  | zero => exact hleaf 0
  | succ depth ih =>
    unfold typeName
    refine Yields.bind (P := fun _ => True) (fun _ => trivial) fun leaf _ => ?_
    by_cases hl : leaf = true
    · rw [if_pos hl]
      exact hleaf _
    rw [if_neg hl]
    refine (yields_between draw 1 3).bind fun count hcount => (yields_times ih count).bind ?_
    rintro _ ⟨args, hargs, rfl, hne, hd⟩
    -- the last two draws: the gap, and the name
    have hname : ∀ gap : Bool, (gap = true → endsInBracket args.texts = true) →
        Yields (do
          let template ← choose draw templates
          return template ++ arguments args.texts gap) (IsTypeWithin (depth + 1)) := fun gap hgap =>
      (yields_choose draw (by simp [templates])).bind fun name hname =>
        yields_pure (isTypeWithin_template hname (hne hcount) hargs hd hgap)
    by_cases hend : endsInBracket args.texts = true
    · simp only [if_pos hend]
      exact Yields.bind (P := fun _ => True) (fun _ => trivial) fun gap _ => hname gap fun _ => hend
    · simp only [if_neg hend]
      exact (yields_pure (P := (· = false)) rfl).bind fun gap hgap =>
        hname gap fun htrue => absurd htrue (by simp [hgap])

theorem yields_typeName (depth : Nat) : Yields (typeName draw depth) IsType :=
  fun s => (yields_typeWithin draw depth s).isType

end Draws

/-! ### The text of a list of types -/

/-- The space that keeps two closing brackets apart. -/
def gapText (gap : Bool) : Text := if gap then [' '] else []

namespace Types

/-- There are no types. -/
def isNil : Types → Bool
  | nil => true
  | _ => false

/-- The types between the brackets of a template, with the gap behind them. -/
def listed (ts : Types) (gap : Bool) : Text :=
  List.intercalate [',', ' '] ts.texts ++ gapText gap

/-- What follows a type in a list, where `rest` are the types behind it. -/
def behind (rest : Types) (gap : Bool) : Text :=
  if rest.isNil then gapText gap else ',' :: ' ' :: rest.listed gap

theorem eq_nil_of_isNil {ts : Types} (h : ts.isNil = true) : ts = nil := by
  cases ts with
  | nil => rfl
  | leaf _ _ => cases h
  | template _ _ _ _ => cases h

theorem texts_eq_nil_iff {ts : Types} : ts.texts = [] ↔ ts.isNil = true := by
  cases ts <;> simp [texts, isNil]

/-- The text of a single type. -/
theorem listed_of_texts {ts : Types} {t : Text} (h : ts.texts = [t]) : ts.listed false = t := by
  rw [listed, h]
  simp [gapText]

/-- The first type of a list, and what follows it. -/
theorem intercalate_cons (t : Text) (rest : Types) (gap : Bool) :
    List.intercalate [',', ' '] (t :: rest.texts) ++ gapText gap = t ++ rest.behind gap := by
  unfold behind
  cases hrest : rest.texts with
  | nil => simp [texts_eq_nil_iff.mp hrest]
  | cons t' ts =>
    have hne : ¬ rest.isNil = true := by simp [← texts_eq_nil_iff, hrest]
    rw [if_neg hne, listed, hrest, List.intercalate_cons_cons]
    simp

theorem listed_leaf (name : Text) (rest : Types) (gap : Bool) :
    (leaf name rest).listed gap = name ++ rest.behind gap :=
  intercalate_cons name rest gap

theorem listed_template (name : Text) (args : Types) (g : Bool) (rest : Types) (gap : Bool) :
    (template name args g rest).listed gap =
      name ++ ('<' :: (args.listed g ++ '>' :: rest.behind gap)) := by
  have hargs : arguments args.texts g = '<' :: (args.listed g ++ ['>']) := by
    simp [arguments, listed, gapText]
  have h := intercalate_cons (name ++ arguments args.texts g) rest gap
  rw [listed, texts, h, hargs]
  simp

end Types

/-! ### No spelling starts in a type -/

/-- Two characters that stand next to each other in no type. -/
def Apart (a b : Char) : Prop := ¬ (a = 'o' ∧ b = 'p') ∧ ¬ (a = 'n' ∧ b = 'n')

instance (a b : Char) : Decidable (Apart a b) := by
  unfold Apart
  infer_instance

/-- Characters that stand in no type. -/
def foreign : Text := ['\'', '-', '\x7b', '(', 'y', '\n']

/-- Neither foreign characters nor such neighbours stand in the text. -/
def Clean (t : Text) : Prop := (∀ c ∈ foreign, c ∉ t) ∧ t.IsChain Apart

instance (t : Text) : Decidable (Clean t) :=
  decidable_of_iff ((foreign.all fun c => !t.contains c) = true ∧ t.IsChain Apart)
    (by simp [Clean])

/-- The marks between names. -/
def marks : Text := ['<', '>', ',', ' ']

theorem marks_spec : ∀ c ∈ marks, c ∉ foreign ∧ c ≠ 'o' ∧ c ≠ 'n' ∧ c ≠ 'p' := by
  simp only [marks, List.forall_mem_cons, List.not_mem_nil, false_imp_iff, implies_true, and_true]
  decide

theorem clean_names : ∀ name ∈ leaves ++ templates, Clean name := by decide +kernel

/-- A word with a character or with neighbours that a text does not have starts nowhere in it. -/
theorem not_isPrefix_drop {bad t w : Text} {R : Char → Char → Prop} (hbad : ∀ c ∈ bad, c ∉ t)
    (hchain : t.IsChain R) (hw : bad.any w.contains = true ∨ ¬ w.IsChain R) (p : Nat) :
    ¬ w <+: t.drop p := by
  intro hstarts
  have hwithin : w <:+: t := hstarts.isInfix.trans (List.drop_suffix p t).isInfix
  rcases hw with hforeign | hneighbours
  · obtain ⟨c, hc, hmem⟩ := List.any_eq_true.mp hforeign
    exact hbad c hc (hwithin.subset (List.contains_iff_mem.mp hmem))
  · exact hneighbours ( List.IsChain.infix hchain hwithin)

namespace Clean

theorem nil : Clean [] := by decide

theorem cons {c : Char} {t : Text} (hc : c ∈ marks) (h : Clean t) : Clean (c :: t) := by
  obtain ⟨hmark, ho, hn, -⟩ := marks_spec c hc
  refine ⟨fun b hb hmem => ?_, List.isChain_cons.mpr ⟨fun b _ => ?_, h.2⟩⟩
  · rcases List.mem_cons.mp hmem with rfl | hmem
    · exact hmark hb
    · exact h.1 b hb hmem
  · exact ⟨fun hop => ho hop.1, fun hnn => hn hnn.1⟩

theorem append {u v : Text} (hu : Clean u) (hv : Clean v) (hhead : ∀ c ∈ v.head?, c ∈ marks) :
    Clean (u ++ v) := by
  refine ⟨fun b hb hmem => ?_, List.isChain_append.mpr ⟨hu.2, hv.2, fun a _ c hc => ?_⟩⟩
  · rcases List.mem_append.mp hmem with hmem | hmem
    · exact hu.1 b hb hmem
    · exact hv.1 b hb hmem
  · obtain ⟨-, -, hn, hp⟩ := marks_spec c (hhead c hc)
    exact ⟨fun hop => hp hop.2, fun hnn => hn hnn.2⟩

/-- **No spelling starts in a clean text.** -/
theorem not_isPrefix {t w : Text} (h : Clean t) (hw : w ∈ Spelling.starts) (p : Nat) :
    ¬ w <+: t.drop p := by
  have hwords : ∀ w ∈ Spelling.starts, foreign.any w.contains = true ∨ ¬ w.IsChain Apart := by
    decide +kernel
  exact not_isPrefix_drop h.1 h.2 (hwords w hw) p

end Clean

/-- The glyphs of a text whose characters all play their own parts. -/
def plain (t : Text) : List Glyph := t.map fun c => ⟨c, baseClass c⟩

namespace Types

section Closed

variable {Q : Text → Prop} (hnil : Q []) (hname : ∀ name ∈ leaves ++ templates, Q name)
  (hcons : ∀ c ∈ marks, ∀ t, Q t → Q (c :: t))
  (happend : ∀ u v, Q u → Q v → (∀ c ∈ v.head?, c ∈ marks) → Q (u ++ v))
include hnil hcons

theorem behind_closed {rest : Types} (h : ∀ gap, Q (rest.listed gap)) (gap : Bool) :
    Q (rest.behind gap) ∧ ∀ c ∈ (rest.behind gap).head?, c ∈ marks := by
  unfold behind
  by_cases hnone : rest.isNil = true
  · rw [if_pos hnone]
    unfold gapText
    split_ifs
    · refine ⟨hcons ' ' (by decide) _ hnil, fun c hc => ?_⟩
      obtain rfl : ' ' = c := Option.some.inj hc
      decide
    · exact ⟨hnil, fun c hc => by cases hc⟩
  · rw [if_neg hnone]
    refine ⟨hcons ',' (by decide) _ (hcons ' ' (by decide) _ (h gap)), fun c hc => ?_⟩
    obtain rfl : ',' = c := Option.some.inj hc
    decide

include hname happend

/-- **What holds of names, and goes on to marks and to what is put together at a mark**, holds of
every list of types. -/
theorem listed_closed {ts : Types} : ts.Formed → ∀ gap, Q (ts.listed gap) := by
  induction ts with
  | nil =>
    intro _ gap
    cases gap
    · exact hnil
    · exact hcons ' ' (by decide) _ hnil
  | leaf name rest ih =>
    rintro ⟨hmem, hrest⟩ gap
    obtain ⟨hbehind, hmarks⟩ := behind_closed hnil hcons (ih hrest) gap
    rw [listed_leaf]
    exact happend _ _ (hname name (List.mem_append_left _ hmem)) hbehind hmarks
  | template name args g rest iha ihr =>
    rintro ⟨hmem, -, -, hargs, hrest⟩ gap
    obtain ⟨hbehind, -⟩ := behind_closed hnil hcons (ihr hrest) gap
    rw [listed_template]
    refine happend _ _ (hname name (List.mem_append_right _ hmem)) (hcons '<' (by decide) _ ?_) ?_
    · refine happend _ _ (iha hargs g) (hcons '>' (by decide) _ hbehind) fun c hc => ?_
      obtain rfl : '>' = c := Option.some.inj hc
      decide
    · intro c hc
      obtain rfl : '<' = c := Option.some.inj hc
      decide

end Closed

theorem clean_listed {ts : Types} (h : ts.Formed) (gap : Bool) : Clean (ts.listed gap) :=
  listed_closed Clean.nil clean_names (fun _ hc _ => .cons hc) (fun _ _ => .append) h gap

/-- **In a type every character plays its own part.** -/
theorem ofText_listed {ts : Types} (h : ts.Formed) (gap : Bool) :
    Source.ofText (ts.listed gap) = plain (ts.listed gap) :=
  Source.ofText_of_forall_not_isPrefix fun _ hw p => (clean_listed h gap).not_isPrefix hw p

end Types

/-! ### Names and their tokens -/

theorem runLength_append {k : Kind} {u w : List Glyph}
    (h : (∃ x ∈ u, x.kind ≠ k) ∨ ∀ g ∈ w.head?, g.kind ≠ k) :
    runLength k (u ++ w) = runLength k u := by
  unfold runLength
  rw [List.takeWhile_append]
  split_ifs with hall
  · rcases h with ⟨x, hx, hne⟩ | hw
    · have htaken := (List.takeWhile_prefix (p := Glyph.isKind k) (l := u)).eq_of_length hall
      have hk := List.mem_takeWhile_imp (htaken ▸ hx)
      simp only [Glyph.isKind, beq_iff_eq] at hk
      exact absurd hk hne
    · have hnone : w.takeWhile (Glyph.isKind k) = [] := by
        rcases w with _ | ⟨g, w⟩
        · rfl
        · exact List.takeWhile_cons_of_neg (by simpa [Glyph.isKind] using hw g rfl)
      rw [hnone, List.append_nil, hall]
  · rfl

/-- Symbols and spaces that end in a symbol are cut by themselves, where no symbol follows. -/
theorem tokensFrom_append {w : List Glyph} (hw : ∀ g ∈ w.head?, g.kind ≠ .symbol) (n : Nat) :
    ∀ {p : Nat} {u : List Glyph}, u.length ≤ n → (∀ g ∈ u, g.kind = .symbol ∨ g.kind = .space) →
      u.getLast?.map Glyph.kind = some .symbol →
      tokensFrom p (u ++ w) = tokensFrom p u ++ tokensFrom (p + u.length) w := by
  induction n with
  | zero =>
    intro p u hn _ hlast
    rw [List.eq_nil_of_length_eq_zero (Nat.le_zero.mp hn)] at hlast
    cases hlast
  | succ n ih =>
    intro p u hn hu hlast
    rcases u with _ | ⟨g, rest⟩
    · cases hlast
    -- the rest holds a symbol if the first glyph is a space
    have htail : tokenTail g.kind (rest ++ w) = tokenTail g.kind rest := by
      rcases hu g List.mem_cons_self with hg | hg
      · rw [hg]
        exact runLength_append (Or.inr hw)
      · rw [hg]
        refine runLength_append (Or.inl ?_)
        rcases List.eq_nil_or_concat rest with rfl | ⟨front, x, rfl⟩
        · rw [List.getLast?_singleton, Option.map_some, hg] at hlast
          cases hlast
        · refine ⟨x, by simp, ?_⟩
          rw [List.concat_eq_append, ← List.cons_append, List.getLast?_concat,
            Option.map_some] at hlast
          rw [Option.some.inj hlast]
          simp
    have hle := tokenTail_le g.kind rest
    rw [List.cons_append, tokensFrom, htail, tokensFrom, List.take_append_of_le_length hle,
      List.drop_append_of_le_length hle, List.cons_append]
    congr 1
    rcases hdrop : rest.drop (tokenTail g.kind rest) with _ | ⟨g', rest'⟩
    · have hlen : rest.length = tokenTail g.kind rest := by
        have := congrArg List.length hdrop
        rw [List.length_drop, List.length_nil] at this
        omega
      rw [List.nil_append, tokensFrom, List.nil_append, List.length_cons, hlen]
    · have hsuffix : g' :: rest' <:+ rest := hdrop ▸ List.drop_suffix _ _
      rw [ih (p := p + (tokenTail g.kind rest + 1)) (u := g' :: rest')]
      · have hlen := congrArg List.length hdrop
        rw [List.length_drop] at hlen
        rw [List.length_cons] at hlen ⊢
        congr 2
        simp only [List.length_cons]
        omega
      · have := hsuffix.length_le
        simp only [List.length_cons] at hn this ⊢
        omega
      · exact fun x hx => hu x (List.mem_cons_of_mem _ (hsuffix.subset hx))
      · obtain ⟨front, hfront⟩ := hsuffix
        rw [← hfront, ← List.cons_append, List.getLast?_append_of_ne_nil _ (by simp)] at hlast
        exact hlast

/-- The text is that of a name: of symbols and spaces, with symbols at both ends. -/
def NameLike (t : Text) : Prop :=
  (∀ c ∈ t, baseClass c = .symbol ∨ baseClass c = .space) ∧
    t.head?.map baseClass = some .symbol ∧ t.getLast?.map baseClass = some .symbol

instance (t : Text) : Decidable (NameLike t) :=
  decidable_of_iff ((t.all fun c => baseClass c = .symbol ∨ baseClass c = .space) = true ∧
    t.head?.map baseClass = some .symbol ∧ t.getLast?.map baseClass = some .symbol)
    (by simp [NameLike])

theorem nameLike_of_mem : ∀ name ∈ leaves ++ templates, NameLike name := by decide +kernel

@[simp] theorem plain_append (u v : Text) : plain (u ++ v) = plain u ++ plain v := List.map_append

@[simp] theorem plain_cons (c : Char) (t : Text) :
    plain (c :: t) = ⟨c, baseClass c⟩ :: plain t := rfl

@[simp] theorem plain_nil : plain [] = [] := rfl

@[simp] theorem length_plain (t : Text) : (plain t).length = t.length := List.length_map _

@[simp] theorem text_plain (t : Text) : Glyph.text (plain t) = t := by
  simp [Glyph.text, plain, Function.comp_def]

namespace NameLike

theorem tokensFrom_append {name : Text} (h : NameLike name) {w : List Glyph}
    (hw : ∀ g ∈ w.head?, g.kind ≠ .symbol) (p : Nat) :
    tokensFrom p (plain name ++ w) =
      tokensFrom p (plain name) ++ tokensFrom (p + name.length) w := by
  have happend := Corpus.tokensFrom_append hw _ (p := p) (u := plain name) (Nat.le_refl _)
    (fun g hg => ?_) ?_
  · rwa [length_plain] at happend
  · obtain ⟨c, hc, rfl⟩ := List.mem_map.mp hg
    rcases h.1 c hc with hcls | hcls <;> simp [Glyph.kind, hcls, CharClass.kind]
  · obtain ⟨c, hc, hcls⟩ := Option.map_eq_some_iff.mp h.2.2
    rw [plain, List.getLast?_map, hc]
    simp [Glyph.kind, hcls, CharClass.kind]

/-- The tokens of a name are symbols and spaces. -/
theorem kind_of_mem {name : Text} (h : NameLike name) {p : Nat} {t : Token}
    (ht : t ∈ tokensFrom p (plain name)) :
    t.cls.isBracket = false ∧ (t.kind = .symbol ∨ t.kind = .space) := by
  obtain ⟨d, g, rest, hd, rfl⟩ := exists_of_mem_tokensFrom _ (Nat.le_refl _) ht
  have hmem : g ∈ plain name := List.mem_of_mem_drop (hd ▸ List.mem_cons_self)
  obtain ⟨c, hc, rfl⟩ := List.mem_map.mp hmem
  rcases h.1 c hc with hcls | hcls <;>
    simp [Token.cls, Glyph.kind, hcls, CharClass.kind, CharClass.isBracket]

end NameLike

/-! ### The forest of a list of types -/

/-- The tokens in front of a forest. -/
def prepend (ts : List Token) (f : Forest Token) : Forest Token := ts.foldr .item f

@[simp] theorem word_prepend (ts : List Token) (f : Forest Token) :
    (prepend ts f).word = ts ++ f.word := by
  induction ts with
  | nil => rfl
  | cons t ts ih =>
    change t :: (prepend ts f).word = _
    rw [ih]
    rfl

theorem fits_prepend {ts : List Token} {f : Forest Token}
    (hts : ∀ t ∈ ts, t.cls.isBracket = false) (hf : f.Fits Token.cls) :
    (prepend ts f).Fits Token.cls := by
  induction ts with
  | nil => exact hf
  | cons t ts ih =>
    exact ⟨hts t List.mem_cons_self, ih fun t' ht' => hts t' (List.mem_cons_of_mem _ ht')⟩

/-- The bracket that opens the arguments of a template. -/
def opening (p : Nat) : Token := ⟨.opener, p, plain ['<']⟩

/-- The bracket that closes them, with the gap behind it. -/
def closing (p : Nat) (gap : Bool) : Token := ⟨.closer, p, plain ('>' :: gapText gap)⟩

/-- The comma between two types. -/
def comma (p : Nat) : Token := ⟨.separator, p, plain [',', ' ']⟩

namespace Types

/-- The forest of the types behind one that ends at `p`, with the comma. -/
def separated (rest : Types) (p : Nat) (f : Forest Token) : Forest Token :=
  if rest.isNil then .nil else .item (comma p) f

/-- The forest of the types when the first of them is at `p`. A gap behind the last type belongs to
its closing bracket. -/
def forest : Types → Nat → Bool → Forest Token
  | nil, _, _ => .nil
  | leaf name rest, p, gap =>
    prepend (tokensFrom p (plain name))
      (rest.separated (p + name.length) (rest.forest (p + name.length + 2) gap))
  | template name args g rest, p, gap =>
    let c := closing (p + name.length + 1 + (args.listed g).length) (rest.isNil && gap)
    prepend (tokensFrom p (plain name))
      (.group (opening (p + name.length)) (args.forest (p + name.length + 1) g) c
        (rest.separated c.stop (rest.forest (c.stop + 2) gap)))

/-- The text behind a type but for the gap. -/
def commaText (rest : Types) (gap : Bool) : Text :=
  if rest.isNil then [] else ',' :: ' ' :: rest.listed gap

theorem behind_eq (rest : Types) (gap : Bool) :
    rest.behind gap = gapText (rest.isNil && gap) ++ rest.commaText gap := by
  unfold behind commaText
  by_cases hnil : rest.isNil = true
  · simp [hnil]
  · simp [hnil, gapText]

theorem fits_separated {rest : Types} {p : Nat} {f : Forest Token} (hf : f.Fits Token.cls) :
    (rest.separated p f).Fits Token.cls := by
  unfold separated
  split_ifs
  · trivial
  · exact ⟨rfl, hf⟩

theorem fits_forest {ts : Types} : ts.Formed → ∀ (p : Nat) (gap : Bool),
    (ts.forest p gap).Fits Token.cls := by
  induction ts with
  | nil => exact fun _ _ _ => trivial
  | leaf name rest ih =>
    rintro ⟨hname, hrest⟩ p gap
    have hlike := nameLike_of_mem name (List.mem_append_left _ hname)
    exact fits_prepend (fun t ht => (hlike.kind_of_mem ht).1) (fits_separated (ih hrest _ gap))
  | template name args g rest iha ihr =>
    rintro ⟨hname, -, -, hargs, hrest⟩ p gap
    have hlike := nameLike_of_mem name (List.mem_append_right _ hname)
    refine fits_prepend (fun t ht => (hlike.kind_of_mem ht).1) ?_
    exact ⟨⟨.angle, rfl, rfl⟩, iha hargs _ g, fits_separated (ihr hrest _ gap)⟩

/-- A list of types starts with a symbol. -/
theorem exists_head_listed {ts : Types} (h : ts.Formed) (hne : ¬ ts.isNil = true) (gap : Bool) :
    ∃ c t, ts.listed gap = c :: t ∧ baseClass c = .symbol := by
  have hname : ∀ name ∈ leaves ++ templates, ∀ t : Text, ∃ c t', name ++ t = c :: t' ∧
      baseClass c = .symbol := by
    intro name hmem t
    obtain ⟨c, hc, hcls⟩ := Option.map_eq_some_iff.mp (nameLike_of_mem name hmem).2.1
    obtain ⟨rest, rfl⟩ : ∃ rest, name = c :: rest := by
      cases name with
      | nil => cases hc
      | cons c' rest => exact ⟨rest, by rw [Option.some.inj hc]⟩
    exact ⟨c, rest ++ t, rfl, hcls⟩
  cases ts with
  | nil => exact absurd rfl hne
  | leaf name rest =>
    rw [listed_leaf]
    exact hname name (List.mem_append_left _ h.1) _
  | template name args g rest =>
    rw [listed_template]
    exact hname name (List.mem_append_right _ h.1) _

/-- A list of types ends as its rest does. -/
theorem endsInBracket_cons {rest : Types} (h : rest.Formed) (hne : ¬ rest.isNil = true) (t : Text) :
    endsInBracket (t :: rest.texts) = endsInBracket rest.texts := by
  obtain ⟨c, t', hlisted, -⟩ := exists_head_listed h hne false
  have hcons := intercalate_cons t rest false
  rw [behind, if_neg hne] at hcons
  unfold endsInBracket
  simp only [listed, gapText, Bool.false_eq_true, if_false, List.append_nil] at hcons hlisted
  rw [hcons, hlisted]
  simp

theorem endsInBracket_leaf {name : Text} (h : NameLike name) : endsInBracket [name] = false := by
  obtain ⟨c, hc, hcls⟩ := Option.map_eq_some_iff.mp h.2.2
  have hne : c ≠ '>' := by
    rintro rfl
    cases hcls
  simp [endsInBracket, List.intercalate, hc, hne]

/-- What may follow a list of types: the closing bracket of a template, or nothing. -/
def Followed (gap : Bool) (w : List Glyph) : Prop :=
  (∃ w', w = plain ['>'] ++ w') ∨ gap = false ∧ w = []

/-- The tokens of the types behind a comma. -/
theorem tokensFrom_commaText {rest : Types} (h : rest.Formed) {gap : Bool} {w : List Glyph}
    (ih : ¬ rest.isNil = true → ∀ p, tokensFrom p (plain (rest.listed gap) ++ w) =
      (rest.forest p gap).word ++ tokensFrom (p + (rest.listed gap).length) w) (p : Nat) :
    tokensFrom p (plain (rest.commaText gap) ++ w) =
      (rest.separated p (rest.forest (p + 2) gap)).word ++
        tokensFrom (p + (rest.commaText gap).length) w := by
  unfold commaText separated
  by_cases hnil : rest.isNil = true
  · simp [hnil, Forest.word]
  rw [if_neg hnil, if_neg hnil, Forest.word]
  obtain ⟨c, t, hlisted, hcls⟩ := exists_head_listed h hnil gap
  have hcomma : tokensFrom p (plain (',' :: ' ' :: rest.listed gap) ++ w) =
      comma p :: tokensFrom (p + 2) (plain (rest.listed gap) ++ w) :=
    tokensFrom_token (show (comma p).glyphs = ⟨',', .separator⟩ :: [⟨' ', .space⟩] from rfl) rfl (by
      simp [tokenTail, runLength, hlisted, Glyph.isKind, Glyph.kind, CharClass.kind, hcls])
  rw [hcomma, ih hnil, List.length_cons, List.length_cons,
    show p + 2 + (rest.listed gap).length = p + ((rest.listed gap).length + 1 + 1) by omega]
  rfl

/-- Behind a type comes no symbol. -/
theorem not_symbol_commaText (rest : Types) (gap : Bool) {gap' : Bool} {w : List Glyph}
    (hw : Followed gap' w) : ∀ g ∈ (plain (rest.commaText gap) ++ w).head?,
      g.kind ≠ .symbol ∧ g.kind ≠ .space := by
  unfold commaText
  split_ifs
  · rcases hw with ⟨w', rfl⟩ | ⟨-, rfl⟩
    · rintro g ⟨⟩
      decide
    · rintro g ⟨⟩
  · rintro g ⟨⟩
    decide

/-- The tokens of a closing bracket, and of what is behind it. -/
theorem tokensFrom_closing (rest : Types) {gap : Bool} {w : List Glyph} (hw : Followed gap w)
    (p : Nat) : tokensFrom p (plain ('>' :: rest.behind gap) ++ w) =
      closing p (rest.isNil && gap) ::
        tokensFrom (closing p (rest.isNil && gap)).stop (plain (rest.commaText gap) ++ w) := by
  have hsplit : plain ('>' :: rest.behind gap) ++ w =
      (closing p (rest.isNil && gap)).glyphs ++ (plain (rest.commaText gap) ++ w) := by
    simp [behind_eq, closing]
  rw [hsplit]
  refine tokensFrom_token (show (closing p (rest.isNil && gap)).glyphs =
    ⟨'>', .closer .angle⟩ :: plain (gapText (rest.isNil && gap)) from rfl) rfl ?_
  by_cases hgap : (rest.isNil && gap) = true
  · -- the gap is taken, because another bracket follows it
    obtain ⟨hnil, rfl⟩ := Bool.and_eq_true_iff.mp hgap
    rcases hw with ⟨w', rfl⟩ | ⟨hfalse, -⟩
    · simp [commaText, hnil, gapText, tokenTail, runLength, Glyph.isKind, Glyph.kind, baseClass,
        CharClass.kind]
    · cases hfalse
  · have hhead := not_symbol_commaText rest gap hw
    have hzero : runLength .space (plain (rest.commaText gap) ++ w) = 0 := by
      have := runLength_append (k := .space) (u := []) (Or.inr fun g hg => (hhead g hg).2)
      simpa [runLength] using this
    have htext : gapText (rest.isNil && gap) = [] := by simp [gapText, hgap]
    rw [htext, plain_nil, List.nil_append, List.length_nil]
    simp only [Glyph.kind, CharClass.kind, tokenTail, hzero, ite_self]

/-- **The tokens of a list of types are those of its forest.** -/
theorem tokensFrom_listed {ts : Types} : ts.Formed → ∀ {gap : Bool} {w : List Glyph},
    (gap = true → endsInBracket ts.texts = true) → Followed gap w → ∀ p,
      tokensFrom p (plain (ts.listed gap) ++ w) =
        (ts.forest p gap).word ++ tokensFrom (p + (ts.listed gap).length) w := by
  induction ts with
  | nil =>
    intro _ gap w hgap _ p
    have hfalse : gap = false := by
      by_contra hcon
      have := hgap (by simpa using hcon)
      cases this
    subst hfalse
    simp [listed, texts, gapText, forest, Forest.word, List.intercalate]
  | leaf name rest ih =>
    rintro ⟨hname, hrest⟩ gap w hgap hw p
    have hlike := nameLike_of_mem name (List.mem_append_left _ hname)
    -- a gap stands behind a bracket only
    have hnone : (rest.isNil && gap) = false := by
      by_contra hcon
      obtain ⟨hnil, htrue⟩ := Bool.and_eq_true_iff.mp (by simpa using hcon)
      have hends := hgap htrue
      rw [eq_nil_of_isNil hnil, texts, texts, endsInBracket_leaf hlike] at hends
      cases hends
    have hcomma := tokensFrom_commaText hrest (fun hne => ih hrest (fun htrue => by
      rw [← endsInBracket_cons hrest hne name]
      exact hgap htrue) hw) (p + name.length)
    rw [listed_leaf, behind_eq, hnone, show gapText false = [] from rfl, List.nil_append,
      plain_append, List.append_assoc,
      hlike.tokensFrom_append (fun g hg => (not_symbol_commaText rest gap hw g hg).1), hcomma,
      forest, word_prepend, List.append_assoc, List.length_append, Nat.add_assoc, Nat.add_assoc]
  | template name args g rest iha ihr =>
    rintro ⟨hname, hne, hg, hargs, hrest⟩ gap w hgap hw p
    have hlike := nameLike_of_mem name (List.mem_append_right _ hname)
    have hcomma := tokensFrom_commaText hrest (fun hne => ihr hrest (fun htrue => by
      rw [← endsInBracket_cons hrest hne (name ++ arguments args.texts g)]
      exact hgap htrue) hw)
    have hinner := iha hargs hg (w := plain ('>' :: rest.behind gap) ++ w)
      (Or.inl ⟨plain (rest.behind gap) ++ w, rfl⟩) (p + name.length + 1)
    have hopen : tokensFrom (p + name.length)
        (plain ('<' :: (args.listed g ++ '>' :: rest.behind gap)) ++ w) =
          opening (p + name.length) :: tokensFrom (p + name.length + 1)
            (plain (args.listed g) ++ (plain ('>' :: rest.behind gap) ++ w)) := by
      rw [← List.append_assoc, ← plain_append]
      exact tokensFrom_token
        (show (opening (p + name.length)).glyphs = [⟨'<', .opener .angle⟩] from rfl) rfl rfl
    rw [listed_template, plain_append, List.append_assoc,
      hlike.tokensFrom_append (by rintro g ⟨⟩; decide), hopen, hinner, tokensFrom_closing rest hw,
      hcomma, forest, word_prepend, Forest.word]
    -- the positions add up
    have hend : (closing (p + name.length + 1 + (args.listed g).length) (rest.isNil && gap)).stop +
        (rest.commaText gap).length =
          p + (name ++ '<' :: (args.listed g ++ '>' :: rest.behind gap)).length := by
      simp only [closing, Token.stop, length_plain, behind_eq, List.length_append, List.length_cons]
      omega
    rw [← hend]
    simp only [List.append_assoc, List.cons_append]

end Types

end DiagLayout.Corpus
