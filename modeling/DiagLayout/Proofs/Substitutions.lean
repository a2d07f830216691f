import DiagLayout.Substitution
import DiagLayout.Proofs.Regions

/-!
# Cutting a function at its substitutions

A function is cut with its nesting kept: every stretch that is cut out of a balanced one is
balanced.

* `Source.exists_substitutionGroup?`: the group of substitutions is a group outside all others;
* `Source.IsSubstitutionGroup.balanced_interior`: what is behind its opening, up to the closer;
* `Source.substitutions_spec`: the substitutions, which are apart and increase, and
  `Source.IsSubstitutionGroup.substitution_spec`: how deep they lie in their group;
* `Source.valuePosition?_spec`: the value of a substitution.
-/

namespace DiagLayout

/-! ### The tokens outside all groups -/

/-- The tokens of a forest outside its groups, with the openers of the groups. -/
def Forest.heads : Forest Token → List Token
  | nil => []
  | item t rest => t :: rest.heads
  | group o _ _ rest => o :: rest.heads

theorem outermost_opener {t : Token} (h : t.kind = .opener) (d : Int) (ts : List Token) :
    outermost d (t :: ts) = (if d = 0 then [t] else []) ++ outermost (d + 1) ts := by
  conv_lhs => unfold outermost
  simp [h]

theorem outermost_closer {t : Token} (h : t.kind = .closer) (d : Int) (ts : List Token) :
    outermost d (t :: ts) = outermost (d - 1) ts := by
  conv_lhs => unfold outermost
  simp [h]

theorem outermost_item {t : Token} (ho : t.kind ≠ .opener) (hc : t.kind ≠ .closer) (d : Int)
    (ts : List Token) :
    outermost d (t :: ts) = (if d = 0 then [t] else []) ++ outermost d ts := by
  conv_lhs => unfold outermost
  cases hk : t.kind <;> simp_all

section Heads

variable {src : Source} {i j : Nat} {f : Forest Token}

theorem outermost_forest (h : Laid src i f j) : ∀ {d : Int}, 0 ≤ d → ∀ ts : List Token,
    outermost d (f.word ++ ts) = (if d = 0 then f.heads else []) ++ outermost d ts := by
  induction h with
  | nil => intro d _ ts; simp [Forest.word, Forest.heads]
  | item ht hb _ ih =>
    intro d hd ts
    obtain ⟨hko, hkc⟩ := ht.formed.kind_item hb
    rw [Forest.word, List.cons_append, outermost_item hko hkc, ih hd]
    split_ifs <;> simp [Forest.heads]
  | @group i j b o c inner rest ho hob hi hc hcb hr ihi ihr =>
    intro d hd ts
    have hko := ho.formed.kind_opener hob
    have hkc := hc.formed.kind_closer hcb
    have hword : (Forest.group o inner c rest).word ++ ts =
        o :: (inner.word ++ c :: (rest.word ++ ts)) := by simp [Forest.word]
    rw [hword, outermost_opener hko, ihi (by omega), if_neg (show ¬ d + 1 = 0 by omega),
      outermost_closer hkc, Int.add_sub_cancel, ihr hd]
    split_ifs <;> simp [Forest.heads]

theorem Laid.outermost_word (h : Laid src i f j) : outermost 0 f.word = f.heads := by
  have := outermost_forest h (Int.le_refl 0) []
  rw [List.append_nil] at this
  simpa [outermost] using this

/-- The tokens outside the groups of a balanced stretch. -/
theorem exists_heads {e : Extent} (h : src.Balanced e.start e.stop) (hlen : e.stop ≤ src.length) :
    ∃ f, outermost 0 (src.tokens e) = f.heads ∧ Laid src e.start f e.stop := by
  obtain ⟨f, hw, hl⟩ := exists_laid h hlen
  exact ⟨f, hw ▸ hl.outermost_word, hl⟩

/-- The brackets of a group hold a balanced stretch together. -/
theorem Laid.balanced_group {b : Bracket} {o c : Token} {inner : Forest Token} (ho : o.At src i)
    (hob : o.cls = .opener b) (hi : Laid src o.stop inner c.start) (hc : c.At src c.start)
    (hcb : c.cls = .closer b) : src.Balanced i c.stop :=
  (Laid.group ho hob hi hc hcb .nil).balanced

theorem Token.At.balanced {t : Token} (ht : t.At src i) (hb : t.cls.isBracket = false) :
    src.Balanced i t.stop := (Laid.item ht hb .nil).balanced

/-- A token outside the groups has a balanced stretch before it, and if it is no opener, one up to
its end. -/
theorem Laid.balanced_head (h : Laid src i f j) : ∀ {t : Token}, t ∈ f.heads →
    src.Balanced i t.start ∧ (t.kind ≠ .opener → src.Balanced i t.stop ∧ t.stop ≤ j) := by
  induction h with
  | nil => intro t ht; simp [Forest.heads] at ht
  | item hat hb hr ih =>
    intro x hx
    have hbal := hat.balanced hb
    rcases List.mem_cons.mp hx with rfl | hx
    · rw [hat.start_eq]
      exact ⟨.refl _, fun _ => ⟨hbal, hr.le⟩⟩
    · obtain ⟨h1, h2⟩ := ih hx
      exact ⟨hbal.trans h1, fun hk => ⟨hbal.trans (h2 hk).1, (h2 hk).2⟩⟩
  | group ho hob hi hc hcb hr _ ihr =>
    intro x hx
    have hbal := Laid.balanced_group ho hob hi hc hcb
    rcases List.mem_cons.mp hx with rfl | hx
    · rw [ho.start_eq]
      exact ⟨.refl _, fun hk => absurd (ho.formed.kind_opener hob) hk⟩
    · obtain ⟨h1, h2⟩ := ihr hx
      exact ⟨hbal.trans h1, fun hk => ⟨hbal.trans (h2 hk).1, (h2 hk).2⟩⟩

/-- An opener outside the groups opens one. -/
theorem Laid.groupAt_head (h : Laid src i f j) : ∀ {t : Token}, t ∈ f.heads → t.kind = .opener →
    ∃ q, src.GroupAt t.start q ∧ q < j := by
  induction h with
  | nil => intro t ht; simp [Forest.heads] at ht
  | item hat hb hr ih =>
    intro x hx hk
    rcases List.mem_cons.mp hx with rfl | hx
    · exact absurd hk (hat.formed.kind_item hb).1
    · exact ih hx hk
  | group ho hob hi hc hcb hr _ ihr =>
    intro x hx hk
    rcases List.mem_cons.mp hx with rfl | hx
    · obtain ⟨-, -, -, hlt, hle⟩ := Laid.group_bounds ho hob hi hc hr
      exact ⟨_, Laid.groupAt ho hob hi hc hcb, by omega⟩
    · exact ihr hx hk

end Heads

/-! ### The group of substitutions -/

namespace Source

variable {src : Source}

/-- **A group of substitutions**: a group outside all others that starts with the opening. -/
structure IsSubstitutionGroup (src : Source) (e g : Extent) : Prop where
  groupAt : src.GroupAt g.start (g.stop - 1)
  stop_le : g.stop ≤ e.stop
  signature : src.Balanced e.start g.start
  opening : Text.startsWith (Glyph.text (src.drop g.start)) Dialect.withOpening = true

theorem exists_substitutionGroup? {e : Extent} (h : src.Balanced e.start e.stop)
    (hlen : e.stop ≤ src.length) : ∃ found, src.substitutionGroup? e = .ok found ∧
      ∀ g ∈ found, src.IsSubstitutionGroup e g := by
  obtain ⟨f, hheads, hl⟩ := exists_heads h hlen
  refine ⟨f.heads.findSome? (src.substitutionGroupAt? e.stop), ?_, fun g hg => ?_⟩
  · simp [substitutionGroup?, readTokens_eq_ok hlen, hheads, bind, Except.bind]
  · obtain ⟨t, ht, hfound⟩ := List.exists_of_findSome?_eq_some hg
    unfold substitutionGroupAt? at hfound
    split_ifs at hfound with hopen
    obtain ⟨distance, hd, rfl⟩ := Option.map_eq_some_iff.mp hfound
    obtain ⟨q, hgroup, hq⟩ := hl.groupAt_head ht hopen.1
    have hlt := hgroup.lt
    rw [hgroup.groupEnd?_window hq, Option.some_inj] at hd
    obtain rfl : t.start + distance = q := by omega
    exact ⟨hgroup, hq, (hl.balanced_head ht).1, hopen.2⟩

/-- The group that is found in a balanced stretch is a group of substitutions. -/
theorem isSubstitutionGroup_of_found {e g : Extent} (h : src.Balanced e.start e.stop)
    (hlen : e.stop ≤ src.length) (hg : src.substitutionGroup? e = .ok (some g)) :
    src.IsSubstitutionGroup e g := by
  obtain ⟨found, hfound, hgroup⟩ := exists_substitutionGroup? h hlen
  exact hgroup g (Except.ok.inj (hfound.symm.trans hg))

/-- Every glyph belongs to a symbol or plays the part of its character. -/
def Classed (src : Source) : Prop := ∀ g ∈ src, g.cls = .symbol ∨ g.cls = baseClass g.char

theorem classed_ofText (t : Text) : (ofText t).Classed := by
  intro g hg
  rw [ofText, ← List.map_uncurry_zip_eq_zipWith] at hg
  obtain ⟨⟨c, marked⟩, -, rfl⟩ := List.mem_map.mp hg
  cases marked <;> simp [Function.uncurry_apply_pair]

/-- The opening of a group of substitutions holds no bracket but the first. -/
theorem Classed.not_isBracket_opening (hsrc : src.Classed) {p : Nat}
    (h : Text.startsWith (Glyph.text (src.drop p)) Dialect.withOpening = true) :
    ∀ g ∈ src.window ⟨p + 1, p + Dialect.withOpening.length⟩, g.cls.isBracket = false := by
  obtain ⟨rest, hrest⟩ := Option.isSome_iff_exists.mp h
  have htext : (src.drop p).map Glyph.char = Dialect.withOpening ++ rest :=
    Text.eq_append_of_after? hrest
  have hchars : (src.window ⟨p + 1, p + Dialect.withOpening.length⟩).map Glyph.char =
      "with ".toList := by
    have hlen : p + Dialect.withOpening.length - (p + 1) = 5 := by
      rw [show Dialect.withOpening.length = 6 from rfl]; omega
    rw [window, ← List.drop_drop, List.map_take, List.map_drop, htext]
    simp only [hlen]
    rfl
  intro g hg
  have hmem : g.char ∈ "with ".toList := hchars ▸ List.mem_map_of_mem hg
  have hplain : ("with ".toList.all fun c => !(baseClass c).isBracket) = true := by decide
  rcases hsrc g (List.mem_of_mem_drop (List.mem_of_mem_take hg)) with hc | hc
  · rw [hc]; rfl
  · have := List.all_eq_true.mp hplain _ hmem
    rw [hc]
    simpa using this

namespace IsSubstitutionGroup

variable {e g : Extent}

theorem balanced_opening (hg : src.IsSubstitutionGroup e g) (hsrc : src.Classed) :
    src.Balanced (g.start + 1) (substitutionInterior g).start :=
  .of_items (Nat.add_le_add_left (by decide) _) (hsrc.not_isBracket_opening hg.opening)

/-- **The interior of a group of substitutions** is balanced. -/
theorem balanced_interior (hg : src.IsSubstitutionGroup e g) (hsrc : src.Classed) :
    src.Balanced (substitutionInterior g).start (substitutionInterior g).stop := by
  obtain ⟨b, -, c, -, -, hc, hcb, hlt, hn⟩ := hg.groupAt
  refine (hg.balanced_opening hsrc).tail ⟨hlt, hn⟩ ?_
  -- the closer is a bracket, so it does not lie in the opening
  by_contra hcon
  have hmem : c ∈ src.window ⟨g.start + 1, g.start + Dialect.withOpening.length⟩ :=
    mem_window hc hlt (Nat.lt_of_not_le hcon)
  have hbr := hsrc.not_isBracket_opening hg.opening c hmem
  rw [hcb, CharClass.isBracket] at hbr
  cases hbr

theorem depthFrom_succ (hg : src.IsSubstitutionGroup e g) :
    src.depthFrom e.start (g.start + 1) = 1 := by
  rw [hg.groupAt.depthFrom_succ hg.signature.le, hg.signature.depthFrom_eq (Nat.le_refl _),
    depthFrom_self, Int.zero_add]

theorem bounds (hg : src.IsSubstitutionGroup e g) (hsrc : src.Classed) :
    g.start + 6 = (substitutionInterior g).start ∧
      (substitutionInterior g).start ≤ (substitutionInterior g).stop ∧
      (substitutionInterior g).stop < e.stop := by
  have h1 := hg.groupAt.lt
  have h2 := hg.stop_le
  exact ⟨rfl, (hg.balanced_interior hsrc).le, show g.stop - 1 < e.stop by omega⟩

end IsSubstitutionGroup

/-! ### The substitutions -/

/-- The pieces of a forest are balanced, apart, and increase; `piece` is where the first of them
starts. -/
theorem pieces_spec {i j : Nat} {f : Forest Token} (h : Laid src i f j) : ∀ {piece : Nat},
    src.Balanced piece i →
      (∀ sub ∈ pieces piece j f.heads, src.Balanced piece sub.start ∧
        src.Balanced sub.start sub.stop ∧ sub.stop ≤ j) ∧
      (pieces piece j f.heads).Pairwise fun sub sub' => sub.stop < sub'.start := by
  induction h with
  | @nil i =>
    intro piece hp
    rw [Forest.heads, pieces]
    split_ifs with hlt
    · refine ⟨fun sub hsub => ?_, List.pairwise_singleton _ _⟩
      rw [List.mem_singleton.mp hsub]
      exact ⟨.refl _, hp, Nat.le_refl _⟩
    · exact ⟨by simp, List.Pairwise.nil⟩
  | @item i j t rest ht hb hr ih =>
    intro piece hp
    have hstop := hp.trans (ht.balanced hb)
    rw [Forest.heads, pieces]
    split_ifs with hsep
    · obtain ⟨hs, hlt, hle⟩ := Laid.item_bounds ht hr
      obtain ⟨hsubs, hpw⟩ := ih (.refl t.stop)
      refine ⟨fun sub hsub => ?_, List.pairwise_cons.mpr ⟨fun sub hsub => ?_, hpw⟩⟩
      · rcases List.mem_cons.mp hsub with rfl | hsub
        · rw [hs]; exact ⟨.refl _, hp, Nat.le_trans (Nat.le_of_lt hlt) hle⟩
        · obtain ⟨h1, h2, h3⟩ := hsubs sub hsub
          exact ⟨hstop.trans h1, h2, h3⟩
      · have := (hsubs sub hsub).1.le
        simp only; omega
    · exact ih hstop
  | group ho hob hi hc hcb hr _ ihr =>
    intro piece hp
    have hko := ho.formed.kind_opener hob
    rw [Forest.heads, pieces, if_neg (by simp [hko])]
    exact ihr (hp.trans (Laid.balanced_group ho hob hi hc hcb))

/-- **The substitutions** of a balanced interior are balanced, apart, and increase. -/
theorem substitutions_spec {e : Extent} (h : src.Balanced e.start e.stop)
    (hlen : e.stop ≤ src.length) :
    (∀ sub ∈ src.substitutions e, src.Balanced e.start sub.start ∧
      src.Balanced sub.start sub.stop ∧ sub.stop ≤ e.stop) ∧
    (src.substitutions e).Pairwise fun sub sub' => sub.stop < sub'.start := by
  obtain ⟨f, hheads, hl⟩ := exists_heads h hlen
  rw [substitutions, hheads]
  exact pieces_spec hl (.refl _)

/-- **The substitutions of a group** lie in it, one level deep. -/
theorem IsSubstitutionGroup.substitution_spec {e g sub : Extent} (hg : src.IsSubstitutionGroup e g)
    (hsrc : src.Classed) (hlen : e.stop ≤ src.length)
    (hsub : sub ∈ src.substitutions (substitutionInterior g)) :
    src.Balanced sub.start sub.stop ∧ g.start < sub.start ∧ sub.stop < e.stop ∧
      src.depthFrom e.start sub.start = 1 := by
  obtain ⟨hstart, hle, hstop⟩ := hg.bounds hsrc
  have hsignature := hg.signature.le
  obtain ⟨h1, h2, h3⟩ := (substitutions_spec (hg.balanced_interior hsrc) (by omega)).1 sub hsub
  have h1' := h1.le
  refine ⟨h2, by omega, by omega, ?_⟩
  rw [((hg.balanced_opening hsrc).trans h1).depthFrom_eq (by omega), hg.depthFrom_succ]

theorem IsSubstitutionGroup.pairwise_substitutions {e g : Extent} (hg : src.IsSubstitutionGroup e g)
    (hsrc : src.Classed) (hlen : e.stop ≤ src.length) :
    (src.substitutions (substitutionInterior g)).Pairwise fun sub sub' => sub.stop < sub'.start :=
  (substitutions_spec (hg.balanced_interior hsrc)
    (Nat.le_trans (Nat.le_of_lt (hg.bounds hsrc).2.2) hlen)).2

/-- **The value of a substitution** is balanced, and so is what stands before it. -/
theorem valuePosition?_spec {sub : Extent} (h : src.Balanced sub.start sub.stop)
    (hlen : sub.stop ≤ src.length) {v : Nat} (hv : src.valuePosition? sub = some v) :
    src.Balanced sub.start v ∧ src.Balanced v sub.stop := by
  obtain ⟨f, hheads, hl⟩ := exists_heads h hlen
  unfold valuePosition? at hv
  rw [hheads] at hv
  obtain ⟨t, ht, rfl⟩ := Option.map_eq_some_iff.mp hv
  have hk : t.kind = .symbol := by
    have := List.find?_some ht
    simp only [decide_eq_true_eq] at this
    exact this.1
  obtain ⟨hbal, hle⟩ := (hl.balanced_head (List.mem_of_find?_eq_some ht)).2 (by simp [hk])
  -- the spaces behind the equals sign
  have hrun := runLength_le .space (src.window ⟨t.stop, sub.stop⟩)
  rw [src.length_window ⟨t.stop, sub.stop⟩ hlen] at hrun
  simp only at hrun
  have hspaces : src.Balanced t.stop
      (t.stop + runLength .space (src.window ⟨t.stop, sub.stop⟩)) := by
    refine .of_items (Nat.le_add_right _ _) fun g hg => ?_
    have hmem : g ∈ (src.window ⟨t.stop, sub.stop⟩).take
        (runLength .space (src.window ⟨t.stop, sub.stop⟩)) := by
      rwa [src.take_window (by omega)]
    exact not_isBracket_of_mem_run (by simp) (by simp) hmem
  have hvalue := hbal.trans hspaces
  exact ⟨hvalue, hvalue.tail h (by omega)⟩

end Source

end DiagLayout
