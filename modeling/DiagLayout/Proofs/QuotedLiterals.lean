import DiagLayout.Quote
import Mathlib.Tactic.Common

/-!
# Character literals between apostrophes

A quote between apostrophes may hold character literals, and theirs are apostrophes too. Its body is
then a list of parts: characters that are no quotation marks, and literals, each behind a character
that leads one (`BodyPart.Placed`).

The search for the closing apostrophe passes over the parts one by one (`closingApostrophe?_texts`),
with one exception: it takes the escaped apostrophe `'\''` for the literal `'\'` and the mark that
closes the quote (`closingApostrophe?_escaped`). So a quote covers its body unless this literal is
in it: `quote_covers_body_iff`.
-/

namespace DiagLayout

/-! ### The parts of a quoted text -/

/-- The character is a quotation mark. -/
def Quote.isMark (c : Char) : Bool := c == '\'' || c == '‘' || c == '’'

/-- A part of what stands between apostrophes. -/
inductive BodyPart where
  /-- A character by itself. -/
  | plain (c : Char)
  /-- A character between apostrophes. -/
  | literal (c : Char)
  /-- A character between apostrophes, after a backslash. -/
  | escaped (c : Char)
  deriving DecidableEq, Repr

namespace BodyPart

/-- The characters of a part. -/
def text : BodyPart → Text
  | plain c => [c]
  | literal c => ['\'', c, '\'']
  | escaped c => ['\'', '\\', c, '\'']

/-- The characters of parts in a row. -/
def texts (parts : List BodyPart) : Text := parts.flatMap text

/-- The last character of a part. -/
def last : BodyPart → Char
  | plain c => c
  | _ => '\''

/-- The last character of parts in a row, `before` being the one before them. -/
def lastOf (before : Char) (parts : List BodyPart) : Char := parts.foldl (fun _ p => p.last) before

/-- **Parts in their places**, `before` being the character before them: the characters by
themselves are no marks, a literal without a backslash holds neither apostrophe nor backslash, and
each literal stands right behind a character that leads one. -/
def Placed (before : Char) : List BodyPart → Prop
  | [] => True
  | plain c :: parts => Quote.isMark c = false ∧ Placed c parts
  | literal c :: parts =>
    Quote.leadsLiteral before = true ∧ (c ≠ '\'' ∧ c ≠ '\\') ∧ Placed '\'' parts
  | escaped _ :: parts => Quote.leadsLiteral before = true ∧ Placed '\'' parts

instance decidablePlaced :
    ∀ (before : Char) (parts : List BodyPart), Decidable (Placed before parts)
  | _, [] => isTrue trivial
  | _, plain c :: parts =>
    @instDecidableAnd _ _ _ (decidablePlaced c parts)
  | _, literal _ :: parts =>
    @instDecidableAnd _ _ _ (@instDecidableAnd _ _ _ (decidablePlaced '\'' parts))
  | _, escaped _ :: parts =>
    @instDecidableAnd _ _ _ (decidablePlaced '\'' parts)

theorem Placed.of_append {front back : List BodyPart} : ∀ {before : Char},
    Placed before (front ++ back) → Placed before front ∧ Placed (lastOf before front) back := by
  induction front with
  | nil => intro before h; exact ⟨trivial, h⟩
  | cons p front ih =>
    intro before h
    cases p with
    | plain c => exact ⟨⟨h.1, (ih h.2).1⟩, (ih h.2).2⟩
    | literal c => exact ⟨⟨h.1, h.2.1, (ih h.2.2).1⟩, (ih h.2.2).2⟩
    | escaped c => exact ⟨⟨h.1, (ih h.2).1⟩, (ih h.2).2⟩

end BodyPart

namespace Quote

open BodyPart

/-! ### The search for the closing apostrophe -/

theorem closingApostrophe?_plain {before c : Char} (hc : c ≠ '\'') (t : Text) :
    closingApostrophe? before (c :: t) = (closingApostrophe? c t).map (· + 1) := by
  rw [closingApostrophe?, if_neg hc]

/-- The search goes on behind a literal. -/
theorem closingApostrophe?_literal {before : Char} {t : Text} {n : Nat}
    (hlead : leadsLiteral before = true) (hn : literalTail? t = some n) :
    closingApostrophe? before ('\'' :: t) =
      (closingApostrophe? '\'' (t.drop n)).map (· + (n + 1)) := by
  rw [closingApostrophe?, if_pos rfl, if_pos hlead, hn]

/-- An apostrophe that starts no literal closes the quote. -/
theorem closingApostrophe?_mark {before : Char} {t : Text}
    (h : leadsLiteral before = true → literalTail? t = none) :
    closingApostrophe? before ('\'' :: t) = some 0 := by
  have hnone : (if leadsLiteral before then literalTail? t else none) = none := by
    split_ifs with hlead
    · exact h hlead
    · rfl
  rw [closingApostrophe?, if_pos rfl, hnone]

theorem literalTail?_eq_none {t : Text} (h : '\'' ∉ t) : literalTail? t = none := by
  rcases t with _ | ⟨a, _ | ⟨b, more⟩⟩
  · rfl
  · rfl
  · have hb : b ≠ '\'' := fun hb => h (by simp [hb])
    have hmore : more.head? ≠ some '\'' := fun hm => h (by simp [List.mem_of_head? hm])
    rw [literalTail?, if_neg fun hx => hb hx.2, if_neg fun hx => hmore hx.2]

/-- **The search passes over the parts**, escaped apostrophes apart. -/
theorem closingApostrophe?_texts {parts : List BodyPart} (rest : Text) : ∀ {before : Char},
    Placed before parts → escaped '\'' ∉ parts →
      closingApostrophe? before (texts parts ++ rest) =
        (closingApostrophe? (lastOf before parts) rest).map (· + (texts parts).length) := by
  induction parts with
  | nil => intro before _ _; simp [texts, lastOf]
  | cons p parts ih =>
    intro before hplaced hfree
    obtain ⟨hp, hrest⟩ := not_or.mp (mt List.mem_cons.mpr hfree)
    have htexts : texts (p :: parts) ++ rest = p.text ++ (texts parts ++ rest) := by
      simp [texts]
    have hlength : (texts (p :: parts)).length = (texts parts).length + p.text.length := by
      simp [texts, Nat.add_comm]
    rw [htexts, hlength]
    cases p with
    | plain c =>
      obtain ⟨hmark, hplaced⟩ := hplaced
      have hc : c ≠ '\'' := by
        rintro rfl
        cases hmark
      rw [text, List.singleton_append, closingApostrophe?_plain hc, ih hplaced hrest,
        Option.map_map]
      rfl
    | literal c =>
      obtain ⟨hlead, ⟨hc, -⟩, hplaced⟩ := hplaced
      have htail : literalTail? (c :: '\'' :: (texts parts ++ rest)) = some 2 := by
        rw [literalTail?, if_pos ⟨hc, rfl⟩]
      have hstep := closingApostrophe?_literal hlead htail
      rw [List.drop_succ_cons, List.drop_succ_cons, List.drop_zero, ih hplaced hrest,
        Option.map_map] at hstep
      exact hstep
    | escaped c =>
      obtain ⟨hlead, hplaced⟩ := hplaced
      have hc : c ≠ '\'' := fun hc => hp (by rw [hc])
      have htail : literalTail? ('\\' :: c :: '\'' :: (texts parts ++ rest)) = some 3 := by
        rw [literalTail?, if_neg fun hx => hc hx.2, if_pos ⟨rfl, rfl⟩]
      have hstep := closingApostrophe?_literal hlead htail
      rw [List.drop_succ_cons, List.drop_succ_cons, List.drop_succ_cons, List.drop_zero,
        ih hplaced hrest, Option.map_map] at hstep
      exact hstep

/-- **The closing apostrophe is found behind the parts.** -/
theorem closingApostrophe?_body {parts : List BodyPart} {before : Char} {post : Text}
    (hplaced : Placed before parts) (hfree : escaped '\'' ∉ parts) (hpost : '\'' ∉ post) :
    closingApostrophe? before (texts parts ++ '\'' :: post) = some (texts parts).length := by
  have hmark : closingApostrophe? (lastOf before parts) ('\'' :: post) = some 0 :=
    closingApostrophe?_mark fun _ => literalTail?_eq_none hpost
  rw [closingApostrophe?_texts _ hplaced hfree, hmark, Option.map_some, Nat.zero_add]

/-- **An escaped apostrophe ends the search** at its last apostrophe: the search takes the backslash
for the character of the literal, and goes on behind it. -/
theorem closingApostrophe?_escaped {front : List BodyPart} {before : Char}
    (hplaced : Placed before front) (hfree : escaped '\'' ∉ front)
    (hlead : leadsLiteral (lastOf before front) = true) (rest : Text) :
    closingApostrophe? before (texts front ++ ('\'' :: '\\' :: '\'' :: '\'' :: rest)) =
      some ((texts front).length + 3) := by
  have htail : literalTail? ('\\' :: '\'' :: '\'' :: rest) = some 2 := by
    rw [literalTail?, if_pos ⟨by decide, rfl⟩]
  have hmark : closingApostrophe? '\'' ('\'' :: rest) = some 0 :=
    closingApostrophe?_mark fun hlead => absurd hlead (by decide)
  have hstep := closingApostrophe?_literal hlead htail
  rw [List.drop_succ_cons, List.drop_succ_cons, List.drop_zero, hmark] at hstep
  rw [closingApostrophe?_texts _ hplaced hfree, hstep, Option.map_some, Option.map_some]
  congr 1
  omega

/-! ### The quotes of the line -/

theorem allFrom_skip {c : Char} (hc : isMark c = false) (pos : Nat) (before : Option Char)
    (t : Text) : allFrom pos before (c :: t) = allFrom (pos + 1) (some c) t := by
  have h1 : c ≠ '‘' := by
    rintro rfl
    cases hc
  have h2 : c ≠ '\'' := by
    rintro rfl
    cases hc
  rw [allFrom, if_neg h1, if_neg fun hx => h2 hx.1]

/-- A text without marks is passed over. -/
theorem allFrom_append {u : Text} (hu : ∀ c ∈ u, isMark c = false) (t : Text) :
    ∀ (pos : Nat) (before : Option Char),
      allFrom pos before (u ++ t) = allFrom (pos + u.length) (u.getLast?.or before) t := by
  induction u with
  | nil => intro pos before; rfl
  | cons c u ih =>
    intro pos before
    have hlast : ((c :: u).getLast?.or before) = u.getLast?.or (some c) := by
      rw [List.getLast?_cons]
      cases u.getLast? <;> rfl
    rw [List.cons_append, allFrom_skip (hu c List.mem_cons_self),
      ih fun d hd => hu d (List.mem_cons_of_mem _ hd), hlast, List.length_cons]
    congr 1
    omega

theorem allFrom_eq_nil {u : Text} (hu : ∀ c ∈ u, isMark c = false) (pos : Nat)
    (before : Option Char) : allFrom pos before u = [] := by
  have h := allFrom_append hu [] pos before
  rw [List.append_nil] at h
  rw [h, allFrom]

/-- An apostrophe that no letter or number precedes opens the quote up to the closing one. -/
theorem allFrom_quote {before : Option Char} {t : Text} {n : Nat}
    (hbefore : before.any Text.isAlphanumeric = false)
    (hn : closingApostrophe? '\'' t = some (n + 1)) (pos : Nat) :
    allFrom pos before ('\'' :: t) = ⟨pos + 1, t.take (n + 1)⟩ ::
      allFrom (pos + (n + 1) + 2) (some '\'') (t.drop (n + 2)) := by
  rw [allFrom, if_neg (by decide), if_pos ⟨rfl, hbefore⟩, hn]
  rfl

section Line

variable {pre post : Text} {parts : List BodyPart} (hpre : ∀ c ∈ pre, isMark c = false)
  (hend : pre.getLast?.any Text.isAlphanumeric = false)
include hpre hend

theorem all_quote {t : Text} {n : Nat} (hn : closingApostrophe? '\'' t = some (n + 1)) :
    all (pre ++ '\'' :: t) = ⟨pre.length + 1, t.take (n + 1)⟩ ::
      allFrom (pre.length + (n + 1) + 2) (some '\'') (t.drop (n + 2)) := by
  have hbefore : (pre.getLast?.or none).any Text.isAlphanumeric = false := by
    rw [Option.or_none]
    exact hend
  rw [all, allFrom_append hpre, Nat.zero_add, allFrom_quote hbefore hn]

/-- Without an escaped apostrophe the quote covers the body, and there is no other. -/
theorem all_body (hpost : ∀ c ∈ post, isMark c = false) (hne : parts ≠ [])
    (hplaced : Placed '\'' parts) (hfree : escaped '\'' ∉ parts) :
    all (pre ++ '\'' :: (texts parts ++ '\'' :: post)) = [⟨pre.length + 1, texts parts⟩] := by
  have hpost' : '\'' ∉ post := fun hmem => absurd (hpost _ hmem) (by decide)
  have hclose := closingApostrophe?_body hplaced hfree hpost'
  obtain ⟨n, hn⟩ : ∃ n, (texts parts).length = n + 1 := by
    obtain ⟨p, parts, rfl⟩ := List.exists_cons_of_ne_nil hne
    have hpos : 0 < p.text.length := by cases p <;> exact Nat.succ_pos _
    refine ⟨(texts (p :: parts)).length - 1, ?_⟩
    simp only [texts, List.flatMap_cons, List.length_append]
    omega
  have hrest : (texts parts ++ '\'' :: post).drop (n + 2) = post := by
    rw [show n + 2 = (texts parts).length + 1 by omega, ← List.drop_drop, List.drop_left]
    rfl
  rw [hn] at hclose
  rw [all_quote hpre hend hclose, hrest, allFrom_eq_nil hpost, ← hn, List.take_left]

/-- With an escaped apostrophe the first quote of the line ends inside it. -/
theorem head?_all_escaped {front back : List BodyPart}
    (hplaced : Placed '\'' (front ++ escaped '\'' :: back)) (hfree : escaped '\'' ∉ front) :
    (all (pre ++ '\'' :: (texts (front ++ escaped '\'' :: back) ++ '\'' :: post))).head? =
      some ⟨pre.length + 1, texts front ++ ['\'', '\\', '\'']⟩ := by
  obtain ⟨hfront, hlead, -⟩ := hplaced.of_append
  have htext : texts (front ++ escaped '\'' :: back) ++ '\'' :: post =
      texts front ++ ('\'' :: '\\' :: '\'' :: '\'' :: (texts back ++ '\'' :: post)) := by
    simp [texts, text]
  have hclose := closingApostrophe?_escaped hfront hfree hlead (texts back ++ '\'' :: post)
  have htake : (texts front ++ ('\'' :: '\\' :: '\'' :: '\'' :: (texts back ++ '\'' :: post))).take
      ((texts front).length + 2 + 1) = texts front ++ ['\'', '\\', '\''] := by
    rw [Nat.add_assoc, List.take_length_add_append]
    rfl
  rw [htext, all_quote hpre hend hclose, List.head?_cons, htake]

end Line

theorem isMark_eq_false {t : Text} (h : t.any isMark = false) : ∀ c ∈ t, isMark c = false := by
  intro c hc
  exact Bool.eq_false_iff.mpr (List.any_eq_false.mp h c hc)

end Quote

open BodyPart in
/-- **A quote covers its body unless an escaped apostrophe is in it.** The line has no other marks
in front of the quote and behind it, and no letter or digit right in front of it; the body is made
of plain characters and of literals in their places. With an escaped apostrophe the first quote ends
inside the first of them. -/
theorem quote_covers_body_iff {pre post : Text} {parts : List BodyPart}
    (hpre : ∀ c ∈ pre, Quote.isMark c = false) (hpost : ∀ c ∈ post, Quote.isMark c = false)
    (hend : pre.getLast?.any Text.isAlphanumeric = false) (hne : parts ≠ [])
    (hplaced : Placed '\'' parts) :
    (Quote.all (pre ++ '\'' :: (texts parts ++ '\'' :: post)) =
      [⟨pre.length + 1, texts parts⟩] ↔ escaped '\'' ∉ parts) ∧
    ∀ front back, parts = front ++ escaped '\'' :: back → escaped '\'' ∉ front →
      (Quote.all (pre ++ '\'' :: (texts parts ++ '\'' :: post))).head? =
        some ⟨pre.length + 1, texts front ++ ['\'', '\\', '\'']⟩ := by
  have hescaped : ∀ front back, parts = front ++ escaped '\'' :: back → escaped '\'' ∉ front →
      (Quote.all (pre ++ '\'' :: (texts parts ++ '\'' :: post))).head? =
        some ⟨pre.length + 1, texts front ++ ['\'', '\\', '\'']⟩ := by
    rintro front back rfl hfree
    exact Quote.head?_all_escaped hpre hend hplaced hfree
  refine ⟨⟨fun hall hmem => ?_, Quote.all_body hpre hend hpost hne hplaced⟩, hescaped⟩
  obtain ⟨front, back, hsplit, hfree⟩ := List.eq_append_cons_of_mem hmem
  have hhead := hescaped front back hsplit hfree
  rw [hall, List.head?_cons, Option.some_inj] at hhead
  have hlength := congrArg (fun q : Quote => q.body.length) hhead
  rw [hsplit] at hlength
  simp [texts, text] at hlength

/-- Literals of both forms between the arguments of a template. -/
theorem quote_covers_body_iff_arguments :
    let parts := "pair<".toList.map BodyPart.plain ++ [.literal 'a'] ++
      ", ".toList.map BodyPart.plain ++ [.escaped 'n', .plain '>']
    BodyPart.Placed '\'' parts ∧ BodyPart.texts parts = "pair<'a', '\\n'>".toList ∧
      Quote.all "no 'pair<'a', '\\n'>' here".toList = [⟨4, "pair<'a', '\\n'>".toList⟩] := by
  intro parts
  have hplaced : BodyPart.Placed '\'' parts := by decide
  have htexts : BodyPart.texts parts = "pair<'a', '\\n'>".toList := by decide
  refine ⟨hplaced, htexts, ?_⟩
  have hcovers := (@quote_covers_body_iff "no ".toList " here".toList parts
    (Quote.isMark_eq_false (by decide)) (Quote.isMark_eq_false (by decide)) (by decide +kernel)
    (by decide) hplaced).1.mpr (by decide)
  rw [htexts] at hcovers
  exact hcovers

/-- The escaped apostrophe is a character literal in its place, yet it closes the quote. -/
theorem escaped_apostrophe_closes_quote :
    let parts := "std::integral_constant<char, ".toList.map BodyPart.plain ++
      [.escaped '\'', .plain '>']
    (∀ c ∈ "note: ".toList, Quote.isMark c = false) ∧
      (∀ c ∈ " here".toList, Quote.isMark c = false) ∧
      "note: ".toList.getLast?.any Text.isAlphanumeric = false ∧ parts ≠ [] ∧
      BodyPart.Placed '\'' parts ∧
      Quote.all ("note: ".toList ++ '\'' :: (BodyPart.texts parts ++ '\'' :: " here".toList)) =
        [⟨7, "std::integral_constant<char, '\\'".toList⟩] ∧
      Quote.all ("note: ".toList ++ '\'' :: (BodyPart.texts parts ++ '\'' :: " here".toList)) ≠
        [⟨7, BodyPart.texts parts⟩] := by
  intro parts
  exact ⟨Quote.isMark_eq_false (by decide), Quote.isMark_eq_false (by decide), by decide +kernel,
    by decide, by decide, by decide +kernel, by decide +kernel⟩

end DiagLayout
