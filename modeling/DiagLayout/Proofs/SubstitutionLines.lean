import DiagLayout.Proofs.BreakSites
import DiagLayout.Proofs.WithGroups

/-!
# The lines of the substitutions

The interior of a group of substitutions is cut at the semicolons outside all groups, and nothing of
it is lost (`Source.CutAtSemicolons`). Every substitution starts a line, one unit further in than
the function, and all other breaks in it are further in still (`OnOwnLine`).

The main result is `substitutions_on_own_lines`.
-/

namespace DiagLayout

/-! ### Cutting at semicolons -/

/-- The token ends a substitution: it is a separator with a semicolon. -/
def Token.endsSubstitution (t : Token) : Bool := t.kind == .separator && t.text.contains ';'

theorem Forest.heads_subset (f : Forest Token) : f.heads ⊆ f.word := by
  induction f with
  | nil => exact List.Subset.refl _
  | item t rest ih => exact List.cons_subset_cons t ih
  | group o inner c rest _ ih =>
    refine List.cons_subset_cons o fun t ht => ?_
    exact List.mem_append_right _ (List.mem_cons_of_mem c (ih ht))

theorem Tiled.reads {src : Source} {ts : List Token} : ∀ {i : Nat}, Tiled src i ts →
    ∀ t ∈ ts, t.glyphs = src.window t.extent := by
  induction ts with
  | nil => simp
  | cons t ts ih =>
    rintro i ⟨hat, hts⟩ x hx
    rcases List.mem_cons.mp hx with rfl | hx
    · exact hat.reads
    · exact ih hts x hx

/-- **Pieces and tokens by turns** from position `i` to position `j`. A token ends each piece, but
for the last, which is then not empty. -/
inductive Alternate : Nat → List Extent → List Token → Nat → Prop
  | nil {i : Nat} : Alternate i [] [] i
  | last {i j : Nat} (h : i < j) : Alternate i [⟨i, j⟩] [] j
  | cons {i j : Nat} {t : Token} {subs : List Extent} {seps : List Token} (hi : i ≤ t.start)
      (h : Alternate t.stop subs seps j) : Alternate i (⟨i, t.start⟩ :: subs) (t :: seps) j

namespace Alternate

variable {i j : Nat} {subs : List Extent} {seps : List Token}

theorem le (h : Alternate i subs seps j) : i ≤ j := by
  induction h with
  | nil => exact Nat.le_refl _
  | last hlt => exact Nat.le_of_lt hlt
  | @cons i j t subs seps hi _ ih =>
    have : t.start ≤ t.stop := Nat.le_add_right _ _
    omega

/-- A piece starts at the beginning, or where a token stops. -/
theorem start_cases (h : Alternate i subs seps j) : ∀ sub ∈ subs,
    sub.start = i ∨ ∃ t ∈ seps, sub.start = t.stop ∧ t.stop ≤ j := by
  induction h with
  | nil => simp
  | last hlt => simp
  | @cons i j t subs seps hi h ih =>
    intro sub hsub
    rcases List.mem_cons.mp hsub with rfl | hsub
    · exact Or.inl rfl
    · right
      rcases ih sub hsub with hstart | ⟨t', ht', hstart⟩
      · exact ⟨t, List.mem_cons_self, hstart, h.le⟩
      · exact ⟨t', List.mem_cons_of_mem _ ht', hstart⟩

end Alternate

namespace Source

variable {src : Source} {i j : Nat} {f : Forest Token}

/-- The tokens outside all groups that end a substitution. -/
def semicolons (src : Source) (e : Extent) : List Token :=
  (outermost 0 (src.tokens e)).filter Token.endsSubstitution

/-- Every semicolon that separates lies in a group of the stretch. -/
def SemicolonsInGroups (src : Source) (e : Extent) : Prop :=
  ∀ x, e.start ≤ x → x < e.stop → src[x]? = some ⟨';', .separator⟩ → 0 < src.depthFrom e.start x

/-- **The substitutions cut a stretch**: with the tokens that end them they make it up, each is
nested, and none has a semicolon outside its groups. -/
structure CutAtSemicolons (src : Source) (e : Extent) (subs : List Extent) : Prop where
  alternate : Alternate e.start subs (src.semicolons e) e.stop
  glyphs_eq : (List.zipWith (· ++ ·) (subs.map src.window)
    ((src.semicolons e).map Token.glyphs ++ [[]])).flatten = src.window e
  balanced : ∀ sub ∈ subs, src.Balanced sub.start sub.stop
  semicolons : ∀ sub ∈ subs, src.SemicolonsInGroups sub

theorem pieces_cons_of_ends {piece stop : Nat} {t : Token} {ts : List Token}
    (h : t.endsSubstitution = true) :
    pieces piece stop (t :: ts) = ⟨piece, t.start⟩ :: pieces t.stop stop ts := by
  rw [pieces, if_pos]
  simpa [Token.endsSubstitution] using h

theorem pieces_cons_of_not_ends {piece stop : Nat} {t : Token} {ts : List Token}
    (h : t.endsSubstitution = false) : pieces piece stop (t :: ts) = pieces piece stop ts := by
  rw [pieces, if_neg]
  simpa [Token.endsSubstitution] using h

theorem endsSubstitution_opener {t : Token} (h : t.kind = .opener) :
    t.endsSubstitution = false := by
  simp [Token.endsSubstitution, h]

/-- The pieces of a forest and the tokens that end them, by turns. -/
theorem alternate_pieces (h : Laid src i f j) : ∀ {piece : Nat}, piece ≤ i →
    Alternate piece (pieces piece j f.heads) (f.heads.filter Token.endsSubstitution) j := by
  induction h with
  | @nil i =>
    intro piece hle
    rw [Forest.heads, pieces]
    split_ifs with hlt
    · exact .last hlt
    · obtain rfl : piece = i := by omega
      exact .nil
  | @item i j t rest ht hb hr ih =>
    intro piece hle
    obtain ⟨hstart, hlt, -⟩ := Laid.item_bounds ht hr
    rw [Forest.heads]
    by_cases hends : t.endsSubstitution = true
    · rw [pieces_cons_of_ends hends, List.filter_cons_of_pos hends]
      exact .cons (by omega) (ih (Nat.le_refl _))
    · rw [pieces_cons_of_not_ends (by simpa using hends), List.filter_cons_of_neg hends]
      exact ih (by omega)
  | @group i j b o c inner rest ho hob hi hc hcb hr _ ihr =>
    intro piece hle
    obtain ⟨hstart, hostop, hin, hlt, -⟩ := Laid.group_bounds ho hob hi hc hr
    have hends := endsSubstitution_opener (ho.formed.kind_opener hob)
    rw [Forest.heads, pieces_cons_of_not_ends hends, List.filter_cons_of_neg (by simp [hends])]
    exact ihr (by omega)

/-- What pieces and tokens by turns read. -/
theorem window_of_alternate {subs : List Extent} {seps : List Token}
    (h : Alternate i subs seps j) : (∀ t ∈ seps, t.glyphs = src.window t.extent) →
      (List.zipWith (· ++ ·) (subs.map src.window)
        (seps.map Token.glyphs ++ [[]])).flatten = src.window ⟨i, j⟩ := by
  induction h with
  | nil => simp
  | last _ => simp
  | @cons i j t subs seps hi h ih =>
    intro hseps
    have hrest := ih fun t' ht' => hseps t' (List.mem_cons_of_mem _ ht')
    have hstop : t.start ≤ t.stop := Nat.le_add_right _ _
    rw [List.map_cons, List.map_cons, List.cons_append, List.zipWith_cons_cons, List.flatten_cons,
      hrest, hseps t List.mem_cons_self, Token.extent, src.window_append hi hstop,
      src.window_append (by omega) h.le]

/-- A stretch whose semicolons are in groups, with a token behind it that has none. -/
theorem SemicolonsInGroups.append {piece k : Nat} (h : src.SemicolonsInGroups ⟨piece, i⟩)
    (hk : ∀ x, i ≤ x → x < k → src[x]? = some ⟨';', .separator⟩ → 0 < src.depthFrom piece x) :
    src.SemicolonsInGroups ⟨piece, k⟩ := by
  intro x hx hxk hsemi
  by_cases hxi : x < i
  · exact h x hx hxi hsemi
  · exact hk x (by omega) hxk hsemi

/-- A token that takes a semicolon ends a substitution. -/
theorem endsSubstitution_of_semicolon {t : Token} (ht : t.At src i)
    (hkinds : ∀ g ∈ t.glyphs, g.kind = .separator → t.kind = .separator) {x : Nat}
    (hsemi : src[x]? = some ⟨';', .separator⟩) (h1 : i ≤ x) (h2 : x < t.stop) :
    t.endsSubstitution = true := by
  have hmem : (⟨';', .separator⟩ : Glyph) ∈ t.glyphs :=
    ht.reads ▸ Source.mem_window hsemi (by rw [ht.start_eq]; exact h1) h2
  have htext : ';' ∈ t.text := List.mem_map_of_mem (f := Glyph.char) hmem
  simp [Token.endsSubstitution, hkinds _ hmem rfl, htext]

/-- **A piece has no semicolon outside its groups.** The piece so far, from `piece` to `i`, has
none. -/
theorem semicolonsInGroups_of_mem_pieces (h : Laid src i f j)
    (hkinds : ∀ t ∈ f.word, ∀ g ∈ t.glyphs, g.kind = .separator → t.kind = .separator) :
    ∀ {piece : Nat}, src.Balanced piece i → src.SemicolonsInGroups ⟨piece, i⟩ →
      ∀ sub ∈ pieces piece j f.heads, src.SemicolonsInGroups sub := by
  induction h with
  | @nil i =>
    intro piece _ hpiece sub hsub
    rw [Forest.heads, pieces] at hsub
    split_ifs at hsub
    · rw [List.mem_singleton.mp hsub]
      exact hpiece
    · cases hsub
  | @item i j t rest ht hb hr ih =>
    intro piece hbal hpiece sub hsub
    have ih' := @ih fun t' ht' => hkinds t' (by simp [Forest.word, ht'])
    rw [Forest.heads] at hsub
    by_cases hends : t.endsSubstitution = true
    · rw [pieces_cons_of_ends hends] at hsub
      rcases List.mem_cons.mp hsub with rfl | hsub
      · rwa [ht.start_eq]
      · exact ih' (.refl _) (fun x hx hx' _ => absurd hx' (by simp only at hx ⊢; omega)) sub hsub
    · rw [pieces_cons_of_not_ends (by simpa using hends)] at hsub
      refine ih' (hbal.trans (ht.balanced hb)) (hpiece.append fun x hx hxk hsemi => ?_) sub hsub
      exact absurd (endsSubstitution_of_semicolon ht (hkinds t (by simp [Forest.word])) hsemi hx
        hxk) hends
  | @group i j b o c inner rest ho hob hi hc hcb hr _ ihr =>
    intro piece hbal hpiece sub hsub
    obtain ⟨hstart, hostop, hin, hlt, -⟩ := Laid.group_bounds ho hob hi hc hr
    rw [Forest.heads, pieces_cons_of_not_ends
      (endsSubstitution_opener (ho.formed.kind_opener hob))] at hsub
    refine ihr (fun t' ht' => hkinds t' (by simp [Forest.word, ht']))
      (hbal.trans (Laid.balanced_group ho hob hi hc hcb)) (hpiece.append fun x hx hxk hsemi => ?_)
      sub hsub
    have hgroup := Laid.groupAt ho hob hi hc hcb
    have hle := hbal.le
    have hzero : src.depthFrom piece o.start = 0 := by
      rw [hstart, hbal.depthFrom_eq (Nat.le_refl _), depthFrom_self]
    -- the brackets of the group, with the spaces behind them, end no substitution
    have hx' : o.start < x ∧ x ≤ c.start := by
      constructor
      · by_contra hcon
        have hends := endsSubstitution_of_semicolon ho (hkinds o (by simp [Forest.word])) hsemi hx
          (by omega)
        simp [Token.endsSubstitution, ho.formed.kind_opener hob] at hends
      · by_contra hcon
        have hends := endsSubstitution_of_semicolon hc (hkinds c (by simp [Forest.word])) hsemi
          (by omega) hxk
        simp [Token.endsSubstitution, hc.formed.kind_closer hcb] at hends
    have := hgroup.depthFrom_le (show piece ≤ _ by omega) hx'.1 hx'.2
    rw [hgroup.depthFrom_succ (by omega), hzero] at this
    omega

/-- **The substitutions cut the interior of their group.** -/
theorem cutAtSemicolons {e : Extent} (h : src.Balanced e.start e.stop)
    (hlen : e.stop ≤ src.length) : src.CutAtSemicolons e (src.substitutions e) := by
  obtain ⟨f, hw, hl⟩ := exists_laid h hlen
  have hheads : outermost 0 (src.tokens e) = f.heads := hw ▸ hl.outermost_word
  have halternate := alternate_pieces hl (Nat.le_refl e.start)
  rw [← hheads] at halternate
  refine ⟨halternate, window_of_alternate halternate fun t ht => ?_, fun sub hsub => ?_, ?_⟩
  · have hmem := (List.mem_filter.mp ht).1
    rw [hheads] at hmem
    exact (tiled_tokens src e).reads t (hw ▸ f.heads_subset hmem)
  · exact ((substitutions_spec h hlen).1 sub hsub).2.1
  · rw [substitutions, hheads]
    refine semicolonsInGroups_of_mem_pieces hl (fun t ht g hg hk => ?_) (.refl _)
      (fun x hx hx' _ => absurd hx' (by simp only at hx ⊢; omega))
    rw [hw] at ht
    rcases kind_of_mem_tokens ht hg with hspace | hkind
    · rw [hk] at hspace
      cases hspace
    · rw [← hkind, hk]

end Source

/-! ### The layout of the substitutions -/

/-- **The instructions of a substitution on a line of its own**: the first starts the line, and the
others break it inside, further in. -/
def OnOwnLine (src : Source) (indent unit : Int) (sub : Extent) (is : List Instruction) : Prop :=
  ∃ inner, is = ⟨sub.start, indent⟩ :: inner ∧ ∀ i ∈ inner, indent + unit ≤ i.indent ∧
    ∃ x : Nat, i.offset = x ∧ sub.start < x ∧ x < sub.stop ∧ src.BreakSite x

theorem exists_mapM_forall₂ {α β : Type} {f : α → Except Fault β} {P : α → β → Prop} {l : List α}
    (h : ∀ a ∈ l, ∃ b, f a = .ok b ∧ P a b) : ∃ bs, l.mapM f = .ok bs ∧ List.Forall₂ P l bs := by
  induction l with
  | nil => exact ⟨[], rfl, .nil⟩
  | cons a l ih =>
    obtain ⟨b, hb, hP⟩ := h a List.mem_cons_self
    obtain ⟨bs, hbs, hPs⟩ := ih fun a' ha' => h a' (List.mem_cons_of_mem _ ha')
    exact ⟨b :: bs, by rw [List.mapM_cons, hb, hbs]; rfl, .cons hP hPs⟩

section Fill

variable {src : Source} {base stop : Nat} {level : Option Int} {atoms : List Atom}

/-- **A substitution less deep than the level is laid out on a line of its own.** -/
theorem exists_fillSubstitution_onOwnLine (h : Hides src base stop level atoms) {sub : Extent}
    (hsub : src.Balanced sub.start sub.stop) (hb : base ≤ sub.start) (hj : sub.stop ≤ stop)
    (hlen : stop ≤ src.length) (hd : ∀ n ∈ level, src.depthFrom base sub.start < n) (indent : Int)
    (config : Config) : ∃ is, fillSubstitution src indent config atoms sub = .ok is ∧
      OnOwnLine src indent config.indent sub is := by
  have hunit : 0 ≤ config.indent := Int.le_of_lt config.indent_pos
  unfold fillSubstitution
  cases hv : src.valuePosition? sub with
  | none =>
    obtain ⟨is, his, hp, hsites⟩ := exists_layOut_sites h hsub hb hj hlen hd config.width hunit _
    refine ⟨_, congrArg (· >>= _) his, is, rfl, fun i hi => ⟨hp.indent i hi, ?_⟩⟩
    obtain ⟨x, hx, hlt, hsite⟩ := hsites i hi
    have := hp.bounds i hi
    exact ⟨x, hx, by omega, hlt, hsite⟩
  | some value =>
    obtain ⟨hbefore, hvalue⟩ := Source.valuePosition?_spec hsub (by omega) hv
    have hle := hbefore.le
    obtain ⟨is, his, hp, hsites⟩ := exists_layOut_sites h (e := ⟨value, sub.stop⟩) hvalue
      (show base ≤ value by omega) hj hlen (by rwa [hbefore.depthFrom_eq hb]) config.width hunit _
    refine ⟨_, congrArg (· >>= _) his, is, rfl, fun i hi => ⟨?_, ?_⟩⟩
    · have := hp.indent i hi
      omega
    · obtain ⟨x, hx, hlt, hsite⟩ := hsites i hi
      have := hp.bounds i hi
      simp only at this
      exact ⟨x, hx, by omega, hlt, hsite⟩

/-- The substitutions of a group that is not folded, each on a line of its own. -/
theorem exists_fillSubstitutions_onOwnLine (hsrc : src.Classed) {e g : Extent}
    (h : Hides src e.start e.stop level atoms) (hg : src.IsSubstitutionGroup e g)
    (hlen : e.stop ≤ src.length) (hd : ∀ n ∈ level, 1 < n) (indent : Int) (config : Config) :
    ∃ iss, (src.substitutions (Source.substitutionInterior g)).mapM
        (fillSubstitution src indent config atoms) = .ok iss ∧
      List.Forall₂ (OnOwnLine src indent config.indent)
        (src.substitutions (Source.substitutionInterior g)) iss := by
  have hsig := hg.signature.le
  refine exists_mapM_forall₂ fun sub hsub => ?_
  obtain ⟨hbal, hfirst, hlast, hdepth⟩ := hg.substitution_spec hsrc hlen hsub
  exact exists_fillSubstitution_onOwnLine h hbal (by omega) (by omega) hlen (by rwa [hdepth]) indent
    config

/-- **A stretch at the start of what is folded** is laid out, with its breaks at break sites. -/
theorem exists_fillType_sites {base stop k : Nat} (h : Hides src base stop level atoms)
    (hbal : src.Balanced base k) (hk : k ≤ stop) (hlen : stop ≤ src.length)
    (hl : ∀ n ∈ level, 1 ≤ n) (indent : Int) (config : Config) :
    ∃ is, fillType src ⟨base, k⟩ indent config atoms = .ok is ∧
      ∀ i ∈ is, ∃ x : Nat, i.offset = x ∧ x < k ∧ src.BreakSite x := by
  obtain ⟨is, his, -, hsites⟩ := exists_layOut_sites h (e := ⟨base, k⟩) hbal (Nat.le_refl _) hk hlen
    (Source.depthFrom_self_lt hl) config.width (Int.le_of_lt config.indent_pos) indent
  exact ⟨is, his, hsites⟩

/-- **A function whose substitutions are shown** is laid out in parts: the signature, then the
substitutions. -/
theorem exists_fillFunction_onOwnLine (hsrc : src.Classed) {e g : Extent}
    (h : Hides src e.start e.stop level atoms) (hlen : e.stop ≤ src.length)
    (hl : ∀ n ∈ level, 1 ≤ n) (hfound : src.substitutionGroup? e = .ok (some g))
    (hg : src.IsSubstitutionGroup e g) (hopen : ¬ isFolded g atoms = true) (indent : Int)
    (config : Config) : ∃ signature iss,
      fillType src ⟨e.start, g.start⟩ indent config atoms = .ok signature ∧
      fillFunction src e indent config atoms = .ok (signature ++ iss.flatten) ∧
      List.Forall₂ (OnOwnLine src (indent + config.indent) config.indent)
        (src.substitutions (Source.substitutionInterior g)) iss ∧
      ∀ i ∈ signature, ∃ x : Nat, i.offset = x ∧ x < g.start ∧ src.BreakSite x := by
  obtain ⟨h1, h2, h3⟩ := hg.bounds hsrc
  obtain ⟨signature, hsignature, hsites⟩ := exists_fillType_sites h hg.signature
    (show g.start ≤ e.stop by omega) hlen hl indent config
  obtain ⟨iss, hiss, hlines⟩ := exists_fillSubstitutions_onOwnLine hsrc h hg hlen
    (h.lt_of_not_isFolded hsrc hg hl hopen) (indent + config.indent) config
  exact ⟨signature, iss, hsignature, fillFunction_of_parts hfound hopen hsignature hiss, hlines,
    hsites⟩

end Fill

/-- What the fold of a match hides. -/
theorem Match.hides_of_fold {src : Source} {m : Match} (hm : Match.best? src = some m)
    {regions : List Region} {level : Option Int} {placeholder : Text} {folding : Folding}
    (hregions : src.regions m.extent = .ok regions)
    (hfold : fold regions level placeholder = .ok folding) :
    (∀ n ∈ level, 1 ≤ n) ∧ Hides src 0 m.length level folding.atoms :=
  ⟨(level_of_fold hfold).2, (Match.foldOf_of_fold hm hregions hfold).hides⟩

/-- **Each substitution gets its own line.** Where a match has a group of substitutions that is not
folded, the substitutions and the semicolons between them make up its interior. The layout of the
function is that of the signature, followed by that of each substitution: one line one unit further
in, and in it only breaks another unit further in. -/
theorem substitutions_on_own_lines {text : Text} {m : Match}
    (hm : Match.best? (Source.ofText text) = some m) {g : Extent}
    (hg : (Source.ofText text).substitutionGroup? m.extent = .ok (some g))
    {regions : List Region} {level : Option Int} {placeholder : Text} {folding : Folding}
    (hregions : (Source.ofText text).regions m.extent = .ok regions)
    (hfold : fold regions level placeholder = .ok folding)
    (hopen : isFolded g folding.atoms = false) (indent : Int) (config : Config) :
    let src := Source.ofText text
    let subs := src.substitutions (Source.substitutionInterior g)
    src.CutAtSemicolons (Source.substitutionInterior g) subs ∧
      ∃ signature lines,
        fillType src ⟨0, g.start⟩ indent config folding.atoms = .ok signature ∧
        fillFunction src m.extent indent config folding.atoms =
          .ok (signature ++ lines.flatten) ∧
        List.Forall₂ (OnOwnLine src (indent + config.indent) config.indent) subs lines := by
  intro src subs
  have hsrc := Source.classed_ofText text
  obtain ⟨-, hle, hbal⟩ := Match.balanced_of_best? hm
  obtain ⟨found, hfound, hgroup⟩ := Source.exists_substitutionGroup? (e := m.extent) hbal hle
  obtain rfl : some g = found := Except.ok.inj (hg.symm.trans hfound)
  have hsub := hgroup g rfl
  obtain ⟨hl, hhides⟩ := Match.hides_of_fold hm hregions hfold
  refine ⟨Source.cutAtSemicolons (hsub.balanced_interior hsrc) ?_, ?_⟩
  · have hstop : (Source.substitutionInterior g).stop < m.length := (hsub.bounds hsrc).2.2
    exact Nat.le_trans (Nat.le_of_lt hstop) hle
  · obtain ⟨signature, lines, hsignature, hfill, hlines, -⟩ :=
      exists_fillFunction_onOwnLine hsrc (e := m.extent) hhides hle hl hg hsub
        (by simp [hopen]) indent config
    exact ⟨signature, lines, hsignature, hfill, hlines⟩

/-- A semicolon inside a group does not cut, and one behind the last substitution adds none. -/
theorem substitutions_on_own_lines_two :
    let src := Source.ofText "f(T) [with T = a<b;c>; U = d;]".toList
    src.CutAtSemicolons ⟨11, 29⟩ [⟨11, 21⟩, ⟨23, 28⟩] ∧
      ∃ regions folding signature first second,
        src.regions ⟨0, 30⟩ = .ok regions ∧ fold regions (some 2) "...".toList = .ok folding ∧
        fillFunction src ⟨0, 30⟩ 4 default folding.atoms = .ok (signature ++ (first ++ second)) ∧
        OnOwnLine src 6 2 ⟨11, 21⟩ first ∧ OnOwnLine src 6 2 ⟨23, 28⟩ second := by
  intro src
  have hbest : Match.best? src = some ⟨.function, 30⟩ := by decide +kernel
  have hgroup : src.substitutionGroup? ⟨0, 30⟩ = .ok (some ⟨5, 30⟩) := by decide +kernel
  have hsubs : src.substitutions ⟨11, 29⟩ = [⟨11, 21⟩, ⟨23, 28⟩] := by decide +kernel
  obtain ⟨regions, folding, hregions, hfold, hhides, -⟩ :=
    Match.exists_fold hbest (show ∀ n ∈ some (2 : Int), 1 ≤ n by simp) "...".toList
  have hopen : isFolded ⟨5, 30⟩ folding.atoms = false := by
    obtain ⟨found, hfound, hfolded⟩ := Source.exists_substitutionGroup?
      (e := ⟨0, 30⟩) (Match.balanced_of_best? hbest).2.2 (by decide +kernel)
    obtain rfl : some ⟨5, 30⟩ = found := Except.ok.inj (hgroup.symm.trans hfound)
    simpa using hhides.isFolded_iff (Source.classed_ofText _) (e := ⟨0, 30⟩) (hfolded _ rfl)
  obtain ⟨hcut, signature, lines, -, hfill, hlines⟩ :=
    substitutions_on_own_lines hbest hgroup hregions hfold hopen 4 default
  rw [show Source.substitutionInterior ⟨5, 30⟩ = ⟨11, 29⟩ from rfl, hsubs] at hcut hlines
  rcases hlines with _ | ⟨hfirst, _ | ⟨hsecond, _ | _⟩⟩
  rename_i first second
  rw [List.flatten_cons, List.flatten_cons, List.flatten_nil, List.append_nil] at hfill
  exact ⟨hcut, regions, folding, signature, first, second, hregions, hfold, hfill, hfirst, hsecond⟩

end DiagLayout
