import Mycelium.Html.Callbacks
import Mycelium.Html.WhiteSpace

/-!
# White space in tags

In a tag the name and every attribute can have white space behind them.  The rules take all four
kinds of it, and the loops that strip it from the tokens know three: the tab stays a part of the
name of a tag or of a value.

`Respaced` relates a document to the documents with other white space in its tags, along the scan of
the first one.  The scans of the two go side by side if the loops leave the same of the white space
and if a value without quotes is not ended by carriage returns alone.  The end of a section
"<![CDATA[" is looked for in the whole line, tags behind the section included, so that other line
ends must not bring another one into the line.
-/

namespace Mycelium

open Lib

namespace Html

variable {a b : UInt8} {c : Cond} {l : Label} {s s' t u u' w w' x sp sp' : Str}

/-! ### Other white space -/

/-- The rules whose pieces end with the white space of a tag. -/
def Label.spaced : List Label :=
  [.startTag, .endTag, .scriptEnd, .name, .nmtoken, .literal, .unquoted]

lemma Label.changeable_of_spaced : ∀ l ∈ spaced, l ∈ changeable := by decide

lemma Label.eq_unquoted_of_spaced : ∀ l ∈ spaced, l ∈ sensitive → l = .unquoted := by decide

/-- What a piece has behind its white space. -/
def Label.closing : Label → Str
  | .scriptEnd => tagc
  | _ => []

/-- The second text has other white space in the tags of the first.  `P` limits the exchange by the
rule, the white space before and after, and the byte behind it; inside a section, by what is left of
the texts. -/
inductive Respaced (P : Label → Str → Str → Option UInt8 → Prop) : Cond → Str → Str → Prop
  | nil (c : Cond) : Respaced P c [] []
  /-- A piece stays as it is. -/
  | same {c : Cond} {l : Label} {u w w' : Str} : u ++ w ≠ [] →
      munch c (u ++ w) scanRules = some (u.length + trail l, l) →
      (c = .attr ∨ c = .tag → ∀ a ∈ u.head?, isWhite a = false) →
      (c = .cdata → P .cdataClose (u ++ w) (u ++ w') none) →
      Respaced P (next c l u) w w' → Respaced P c (u ++ w) (u ++ w')
  /-- The white space behind a name or a value. -/
  | behind {c : Cond} {l : Label} {x sp sp' w w' : Str} : l ∈ Label.spaced →
      munch c ((x ++ sp ++ l.closing) ++ w) scanRules = some ((x ++ sp ++ l.closing).length, l) →
      (∃ a ∈ x.getLast?, isWhite a = false) → White sp → White sp' → sp.length = sp'.length →
      P l sp sp' w.head? → Respaced P (next c l (x ++ sp ++ l.closing)) w w' →
      Respaced P c ((x ++ sp ++ l.closing) ++ w) ((x ++ sp' ++ l.closing) ++ w')
  /-- The white space that is scanned by itself. -/
  | between {c : Cond} {sp sp' w w' : Str} : c = .attr ∨ c = .tag → White sp → White sp' →
      sp.length = sp'.length → (∀ a ∈ w.head?, isWhite a = false) → Respaced P c w w' →
      Respaced P c (sp ++ w) (sp' ++ w')
  /-- The attributes of the start tag of a script are scanned with the script. -/
  | script {u u' w w' : Str} : munch .script (u ++ w) scanRules = some (u.length, .scriptData) →
      List.Forall₂ Alike u u' → Respaced P .script w w' → Respaced P .script (u ++ w) (u' ++ w')

/-- The places in the first line of a text where a section can be closed. -/
def closes (w : Str) : List ℕ :=
  (List.range w.length).filter fun k => (w.take k).all (· != 0x0A) && cdatac.isPrefixOf (w.drop k)

/-- A value without quotes ends in front of the white space, or right behind it. -/
def Stops (sp : Str) (b : Option UInt8) : Prop :=
  sp = [] ∨ (∃ c ∈ sp, c ≠ 0x0D) ∨ ∀ c ∈ b, isUnquoted c = false

/-- The exchanges that are not seen. -/
def Allowed (l : Label) (sp sp' : Str) (b : Option UInt8) : Prop :=
  match l with
  | .startTag | .endTag | .scriptEnd | .literal => stripBlanks sp = stripBlanks sp'
  | .unquoted => stripBlanks sp = stripBlanks sp' ∧ Stops sp' b
  | .nmtoken => Stops sp' b
  | .cdataClose => closes sp = closes sp'
  | _ => True

variable {P : Label → Str → Str → Option UInt8 → Prop}

lemma Respaced.alike (h : Respaced P c w w') : List.Forall₂ Alike w w' := by
  induction h with
  | nil => exact .nil
  | same _ _ _ _ _ ih => exact List.rel_append (forall₂_alike_refl _) ih
  | behind _ _ _ hsp hsp' hlen _ _ ih =>
      refine List.rel_append (List.rel_append (List.rel_append (forall₂_alike_refl _) ?_)
        (forall₂_alike_refl _)) ih
      exact forall₂_alike_of_white hsp hsp' hlen
  | between _ hsp hsp' hlen _ _ ih =>
      exact List.rel_append (forall₂_alike_of_white hsp hsp' hlen) ih
  | script _ halike _ ih => exact List.rel_append halike ih

/-! ### Pieces -/

/-- Nothing is put back outside of sections. -/
lemma trail_eq_zero {n : ℕ} (hc : c ≠ .cdata) (h : munch c w scanRules = some (n, l)) :
    trail l = 0 := by
  by_contra htrail
  obtain rfl := eq_cdataClose_of_trail htrail
  exact hc (List.mem_singleton.1 (munch_label_cases h).2.1)

lemma ne_nil_of_last (hlast : ∃ a ∈ x.getLast?, isWhite a = false) : x ≠ [] := by
  rintro rfl
  exact absurd hlast (by simp)

lemma ne_nil_of_munch (hne : u ++ w ≠ []) (h : munch c (u ++ w) scanRules = some (u.length, l)) :
    u ≠ [] :=
  List.length_pos_iff.1 (munch_pos h hne)

lemma head_eq_of_alike (h : List.Forall₂ Alike w w') (hw : ∀ a ∈ w.head?, isWhite a = false) :
    w.head? = w'.head? := by
  cases h with
  | nil => rfl
  | cons hab _ =>
      rcases hab with rfl | ⟨ha, -⟩
      · rfl
      · rw [hw _ rfl] at ha
        exact absurd ha (by simp)

lemma head_alike (h : List.Forall₂ Alike w w') (hw : ∀ a ∈ w.head?, isWhite a = false) :
    ∀ a ∈ w'.head?, isWhite a = false := by
  rwa [← head_eq_of_alike h hw]

/-- Where a section is left, the text goes on with its close. -/
lemma exists_of_trail (h : munch c (u ++ w) scanRules = some (u.length + trail l, l))
    (htrail : trail l ≠ 0) : l = .cdataClose ∧ 0x0A ∉ u ∧ cdatac <+: w := by
  obtain rfl := eq_cdataClose_of_trail htrail
  obtain ⟨hle, -, hmatch, -⟩ := munch_label_cases h
  obtain ⟨s, hs, heq⟩ := matches_cdataClose_iff.1 hmatch
  rw [List.take_length_add_append] at heq
  have hlen : (w.take (trail .cdataClose)).length = cdatac.length := by
    rw [List.length_append] at hle
    exact List.length_take_of_le (by omega)
  obtain ⟨rfl, hclose⟩ := List.append_inj' heq hlen
  exact ⟨rfl, hs, hclose ▸ List.take_prefix _ _⟩

/-- Outside of tags and scripts the first byte stays. -/
lemma Respaced.head_eq (h : Respaced P c w w') (hattr : c ≠ .attr) (htag : c ≠ .tag)
    (hscript : c ≠ .script) : w.head? = w'.head? := by
  have halike := h.alike
  cases h with
  | nil => rfl
  | @same _ l u w w' hne hmunch _ _ _ =>
      cases u with
      | cons a u => rfl
      | nil =>
          -- an empty piece is left of a section that is closed at once
          have hpos := munch_pos hmunch hne
          rw [List.length_nil, Nat.zero_add] at hpos
          obtain ⟨-, -, z, rfl⟩ := exists_of_trail hmunch (by omega)
          exact head_eq_of_alike halike (by simp [cdatac, isWhite])
  | behind _ _ hlast _ _ _ _ _ =>
      obtain ⟨a, x, rfl⟩ := List.exists_cons_of_ne_nil (ne_nil_of_last hlast)
      rfl
  | between hc => exact absurd hc (by simp [hattr, htag])
  | script => exact absurd rfl hscript

/-- The pieces of these rules take all white space behind them. -/
lemma head_of_absorbs (hl : l ∈ [Label.startTag, .endTag, .name, .nmtoken, .literal, .unquoted])
    (h : munch c (u ++ w) scanRules = some (u.length, l)) : ∀ a ∈ w.head?, isWhite a = false := by
  obtain ⟨-, hc, hmatch, -⟩ := munch_label_cases h
  rw [List.take_left] at hmatch
  intro a ha
  obtain ⟨z, rfl⟩ := List.head?_eq_some_iff.1 ha
  by_contra hwhite
  rw [Bool.not_eq_false] at hwhite
  have hlong : l.pattern.Matches (u ++ [a]) := by
    have hws : ∀ sp, White sp → White (sp ++ [a]) := fun sp hsp b hb => by
      rcases List.mem_append.1 hb with hb | hb
      · exact hsp b hb
      · rw [List.mem_singleton.1 hb]
        exact hwhite
    cases l with
    | startTag | endTag =>
        obtain ⟨x, y, hx, hy, rfl⟩ := Regex.matches_seq_iff.1 hmatch
        obtain ⟨n, sp, hn, hsp, rfl⟩ := matches_cat_ws_iff.1 hy
        refine Regex.matches_seq_iff.2 ⟨x, n ++ (sp ++ [a]), hx, ?_, by simp⟩
        exact matches_cat_ws_iff.2 ⟨n, sp ++ [a], hn, hws sp hsp, rfl⟩
    | name | nmtoken | literal | unquoted =>
        obtain ⟨x, sp, hx, hsp, rfl⟩ := matches_cat_ws_iff.1 hmatch
        exact matches_cat_ws_iff.2 ⟨x, sp ++ [a], hx, hws sp hsp, by simp⟩
    | _ => exact absurd hl (by decide)
  exact not_matches_concat l h hc hlong

/-- The rules that begin a tag. -/
def Label.opens : List Label := [.startTag, .endTag]

lemma Label.notMem_conds_of_opens : ∀ l ∈ opens, .attrval ∉ l.conds := by decide

/-- Behind a piece that stays outside of tags and scripts, the first byte stays too. -/
lemma Respaced.head_eq_of_munch (hattr : c ≠ .attr) (htag : c ≠ .tag) (hscript : c ≠ .script)
    (hopens : l ∉ Label.opens)
    (h : munch c (u ++ w) scanRules = some (u.length, l)) (hrest : Respaced P (next c l u) w w') :
    w.head? = w'.head? := by
  cases l with
  | startTag | endTag => exact absurd (by decide) hopens
  | nmtoken | literal | unquoted =>
      exact head_eq_of_alike hrest.alike (head_of_absorbs (by decide) h)
  | _ =>
      refine hrest.head_eq ?_ ?_ ?_
      all_goals first
        | exact hattr
        | exact htag
        | exact hscript
        | simp [next]

lemma exists_of_opens (hl : l ∈ Label.opens) (h : l.pattern.Matches u) :
    ∃ a ∈ u, isWhite a = false := by
  refine ⟨0x3C, ?_, by decide⟩
  cases l with
  | startTag | endTag =>
      obtain ⟨x, y, hx, -, rfl⟩ := Regex.matches_seq_iff.1 h
      rw [matches_delim_iff.1 hx]
      exact List.mem_cons_self
  | _ => exact absurd hl (by decide)

/-! ### Values without quotes -/

/-- A beginning of a value without quotes that is longer than a piece. -/
lemma matches_unquoted_concat (hu : u ≠ []) (h : Label.unquoted.pattern.Matches (u ++ b :: t)) :
    Label.unquoted.pattern.Matches (u ++ [b]) := by
  obtain ⟨r, sp, hr, hsp, heq⟩ := matches_cat_ws_iff.1 h
  rw [Regex.matches_plus_cls_iff] at hr
  have hword : ∀ r sp, r ≠ [] → (∀ a ∈ r, isUnquoted a = true) → White sp →
      Label.unquoted.pattern.Matches (r ++ sp) := fun r sp hne hr hsp =>
    matches_cat_ws_iff.2 ⟨r, sp, Regex.matches_plus_cls_iff.2 ⟨hne, hr⟩, hsp, rfl⟩
  rcases List.append_eq_append_iff.1 heq with ⟨y, rfl, rfl⟩ | ⟨y, rfl, hy⟩
  · have hwhite : White (y ++ [b]) := fun a ha => hsp a (by simp at ha ⊢; tauto)
    rw [List.append_assoc]
    exact hword r _ hr.1 hr.2 hwhite
  · cases y with
    | nil =>
        rw [List.nil_append] at hy
        rw [List.append_nil] at hr
        exact hword u [b] hu hr.2 fun a ha => hsp a (by rw [← hy]; simp at ha ⊢; tauto)
    | cons d y =>
        obtain ⟨rfl, -⟩ := List.cons.inj hy
        have hclass : ∀ a ∈ u ++ [b], isUnquoted a = true := fun a ha =>
          hr.2 a (by simp at ha ⊢; tauto)
        simpa using hword (u ++ [b]) [] (by simp) hclass (by simp [White])

lemma length_le_of_unquoted_same (hne : u ≠ [])
    (h : munch .attrval (u ++ w) scanRules = some (u.length, l)) (hhead : w.head? = w'.head?)
    (ht : t <+: u ++ w') (hmatch : Label.unquoted.pattern.Matches t) :
    t.length ≤ u.length := by
  cases w' with
  | nil => simpa using ht.length_le
  | cons b w' =>
      rcases prefix_append_cons_cases ht with hle | ⟨t, -, rfl⟩
      · exact hle.length_le
      · obtain ⟨z, rfl⟩ := List.head?_eq_some_iff.1 hhead
        exact absurd (matches_unquoted_concat hne hmatch)
          (not_matches_concat .unquoted h (by decide))

/-- All of a value without quotes is in front of the white space. -/
lemma isUnquoted_of_behind (h : Label.unquoted.pattern.Matches (x ++ sp))
    (hlast : ∃ a ∈ x.getLast?, isWhite a = false) : ∀ a ∈ x, isUnquoted a = true := by
  obtain ⟨r, sp₁, hr, hsp₁, heq⟩ := matches_cat_ws_iff.1 h
  rw [Regex.matches_plus_cls_iff] at hr
  rcases List.append_eq_append_iff.1 heq with ⟨y, rfl, rfl⟩ | ⟨y, rfl, -⟩
  · obtain ⟨a, ha, hwhite⟩ := hlast
    rcases List.eq_nil_or_concat y with rfl | ⟨z, d, rfl⟩
    · rw [List.append_nil]
      exact hr.2
    · -- the last byte would be white space
      rw [List.concat_eq_append, ← List.append_assoc, List.getLast?_concat] at ha
      obtain rfl := Option.some.inj ha
      rw [hsp₁ d (by simp)] at hwhite
      exact absurd hwhite (by simp)
  · exact fun a ha => hr.2 a (List.mem_append_left _ ha)

lemma matches_behind (hl : l ∈ Label.spaced) (h : l.pattern.Matches (x ++ sp ++ l.closing))
    (hlast : ∃ a ∈ x.getLast?, isWhite a = false) (hsp' : White sp')
    (halike : List.Forall₂ Alike (x ++ sp ++ l.closing) (x ++ sp' ++ l.closing)) :
    l.pattern.Matches (x ++ sp' ++ l.closing) := by
  by_cases hsens : l ∈ Label.sensitive
  · obtain rfl := Label.eq_unquoted_of_spaced l hl hsens
    simp only [Label.closing, List.append_nil] at h ⊢
    have hx := Regex.matches_plus_cls_iff.2 ⟨ne_nil_of_last hlast, isUnquoted_of_behind h hlast⟩
    exact matches_cat_ws_iff.2 ⟨x, sp', hx, hsp', rfl⟩
  · exact matches_alike hsens halike h

/-! ### Exchanged pieces -/

/-- A piece that stays is taken in front of the other rest, too. -/
lemma munch_same (hc : c ≠ .cdata)
    (hwhite : c = .attr ∨ c = .tag → ∀ a ∈ u.head?, isWhite a = false) (hne : u ≠ [])
    (h : munch c (u ++ w) scanRules = some (u.length, l))
    (hrest : Respaced P (next c l u) w w') : munch c (u ++ w') scanRules = some (u.length, l) := by
  obtain ⟨-, hcond, hmatch, -⟩ := munch_label_cases h
  rw [List.take_left] at hmatch
  refine munch_alike h hne hc (forall₂_alike_refl u) hrest.alike hmatch (Or.inl rfl) ?_ ?_
  · by_cases hscript : c = .script
    · exact Or.inl hscript
    refine Or.inr ?_
    by_cases htag : c = .attr ∨ c = .tag
    · obtain ⟨a, z, rfl⟩ := List.exists_cons_of_ne_nil hne
      exact Or.inl ⟨a, List.mem_cons_self, hwhite htag a rfl⟩
    by_cases hopens : l ∈ Label.opens
    · exact Or.inl (exists_of_opens hopens hmatch)
    · rw [not_or] at htag
      exact Or.inr ⟨rfl, hrest.head_eq_of_munch htag.1 htag.2 hscript hopens h⟩
  · rintro rfl t ht hm
    have hopens : l ∉ Label.opens := fun hmem => Label.notMem_conds_of_opens l hmem hcond
    refine length_le_of_unquoted_same hne h ?_ ht hm
    exact hrest.head_eq_of_munch (by decide) (by decide) (by decide) hopens h

lemma mem_closes_iff {k : ℕ} : k ∈ closes w ↔ 0x0A ∉ w.take k ∧ cdatac <+: w.drop k := by
  rw [closes, List.mem_filter, Bool.and_eq_true, List.isPrefixOf_iff_prefix, List.all_eq_true,
    forall_bne_iff]
  refine ⟨fun h => h.2, fun h => ⟨List.mem_range.2 ?_, h⟩⟩
  by_contra hle
  rw [List.drop_of_length_le (by omega)] at h
  exact absurd h.2 (by decide)

/-- The pieces that a section can be closed with. -/
lemma exists_closes_iff {n : ℕ} : n ∈ closes w ↔
    ∃ t, t <+: w ∧ Label.cdataClose.pattern.Matches t ∧ t.length = n + cdatac.length := by
  rw [mem_closes_iff]
  constructor
  · rintro ⟨hline, z, hz⟩
    have hlen : (w.take n).length = n := by
      refine List.length_take_of_le ?_
      by_contra hlt
      rw [List.drop_of_length_le (by omega)] at hz
      exact absurd hz (by simp [cdatac])
    refine ⟨w.take n ++ cdatac, ⟨z, ?_⟩, matches_cdataClose_iff.2 ⟨_, hline, rfl⟩, ?_⟩
    · rw [List.append_assoc, hz, List.take_append_drop]
    · rw [List.length_append, hlen]
  · rintro ⟨t, ⟨z, rfl⟩, hmatch, hlen⟩
    obtain ⟨s, hs, rfl⟩ := matches_cdataClose_iff.1 hmatch
    obtain rfl : s.length = n := by simpa using hlen
    rw [List.append_assoc, List.take_left, List.drop_left]
    exact ⟨hs, List.prefix_append _ _⟩

/-- Where a section can be closed in the second text, it can be closed in the first. -/
lemma length_le_of_closes {n : ℕ} (h : munch .cdata w scanRules = some (n, l))
    (hcloses : closes w = closes w') (ht : t <+: w')
    (hmatch : Label.cdataClose.pattern.Matches t) : t.length ≤ n := by
  obtain ⟨s, -, rfl⟩ := matches_cdataClose_iff.1 hmatch
  have hmem : s.length ∈ closes w' := exists_closes_iff.2 ⟨_, ht, hmatch, by simp⟩
  rw [← hcloses] at hmem
  obtain ⟨r, hr, hmatch', hlen⟩ := exists_closes_iff.1 hmem
  rw [List.length_append, ← hlen]
  exact (munch_label_cases h).2.2.2 .cdataClose (by decide) r hr hmatch'

/-- A piece inside a section is taken in front of the other rest, too. -/
lemma munch_section_inside (hne : u ++ w ≠ [])
    (h : munch .cdata (u ++ w) scanRules = some (u.length, l)) (hhead : w.head? = w'.head?)
    (hcloses : closes (u ++ w) = closes (u ++ w')) :
    munch .cdata (u ++ w') scanRules = some (u.length, l) := by
  have hpos := munch_pos h hne
  obtain ⟨-, hcond, hmatch, -⟩ := munch_label_cases h
  have hfirst := munch_label_first h
  rw [List.take_left] at hmatch hfirst
  refine munch_label hcond hmatch hfirst fun l' hc' t ht hm => ?_
  cases l' with
  | cdataClose => exact length_le_of_closes h hcloses ht hm
  | cdataSmallClose =>
      rw [matches_delim_iff.1 hm] at ht ⊢
      exact length_le_of_closes h hcloses ht (matches_cdataClose_iff.2 ⟨[], by simp, rfl⟩)
  | cdataUnmatched | unmatched =>
      obtain ⟨b, -, rfl⟩ := Regex.matches_cls_iff.1 hm
      exact hpos
  | newlines =>
      cases w' with
      | nil => simpa using ht.length_le
      | cons b w' =>
          rcases prefix_append_cons_cases ht with hle | ⟨t, -, rfl⟩
          · exact hle.length_le
          · obtain ⟨z, rfl⟩ := List.head?_eq_some_iff.1 hhead
            refine absurd ?_ (not_matches_concat .newlines h (by decide))
            have hnl := (Regex.matches_plus_cls_iff.1 hm).2
            exact Regex.matches_plus_cls_iff.2
              ⟨by simp, fun a ha => hnl a (by simp at ha ⊢; tauto)⟩
  | _ => exact absurd hc' (by decide)

/-- The close of a section stays where it is, and the line ends in front of any other. -/
lemma munch_section_close {n : ℕ} (hn : n = u.length + trail .cdataClose)
    (h : munch .cdata (u ++ w) scanRules = some (n, .cdataClose)) (hline : 0x0A ∉ u)
    (hclose : cdatac <+: w) (hcloses : closes (u ++ w) = closes (u ++ w')) :
    munch .cdata (u ++ w') scanRules = some (n, .cdataClose) := by
  have hmem : u.length ∈ closes (u ++ w) := mem_closes_iff.2 (by simpa using ⟨hline, hclose⟩)
  rw [hcloses, mem_closes_iff, List.drop_left] at hmem
  obtain ⟨z, rfl⟩ := hmem.2
  have hlen : n = (u ++ cdatac).length := by simp [hn, trail, cdatac]
  rw [hlen, ← List.append_assoc]
  refine munch_label (by decide) (matches_cdataClose_iff.2 ⟨u, hline, rfl⟩) ?_ ?_
  · have hnone : ∀ l' ∈ Label.all.takeWhile (· != .cdataClose), .cdata ∉ l'.conds := by decide
    exact fun l' hl' hc' => absurd hc' (hnone l' hl')
  · intro l' hc' t ht hm
    rw [List.append_assoc] at ht
    cases l' with
    | cdataClose => exact hlen ▸ length_le_of_closes h hcloses ht hm
    | cdataSmallClose =>
        rw [matches_delim_iff.1 hm, List.length_append]
        omega
    | cdataUnmatched | unmatched =>
        obtain ⟨b, -, rfl⟩ := Regex.matches_cls_iff.1 hm
        simp [cdatac]
    | newlines =>
        have hnl := (Regex.matches_plus_cls_iff.1 hm).2
        have hle := length_le_of_isPrefix (d := 0x5D) ht fun hmem =>
          absurd (hnl _ hmem) (by decide)
        rw [List.length_append]
        omega
    | _ => exact absurd hc' (by decide)

/-- A piece of a section is taken in front of the other rest, too. -/
lemma munch_section (hne : u ++ w ≠ [])
    (h : munch .cdata (u ++ w) scanRules = some (u.length + trail l, l))
    (hhead : w.head? = w'.head?) (hcloses : closes (u ++ w) = closes (u ++ w')) :
    munch .cdata (u ++ w') scanRules = some (u.length + trail l, l) := by
  by_cases htrail : trail l = 0
  · rw [htrail, Nat.add_zero] at h ⊢
    exact munch_section_inside hne h hhead hcloses
  · obtain ⟨rfl, hline, hclose⟩ := exists_of_trail h htrail
    exact munch_section_close rfl h hline hclose hcloses

/-- A value without quotes ends with the white space if that is not of carriage returns only. -/
lemma length_le_of_unquoted_stop
    (h : munch .attrval (x ++ sp ++ w) scanRules = some ((x ++ sp).length, l))
    (hl : l = .nmtoken ∨ l = .unquoted) (hne : x ≠ []) (hsp' : White sp')
    (hlen : sp.length = sp'.length) (hstop : Stops sp' w.head?)
    (hw : List.Forall₂ Alike w w') (ht : t <+: x ++ sp' ++ w')
    (hm : Label.unquoted.pattern.Matches t) : t.length ≤ (x ++ sp').length := by
  have hhead : ∀ a ∈ w.head?, isWhite a = false :=
    head_of_absorbs (by rcases hl with rfl | rfl <;> decide) h
  rcases hstop with rfl | ⟨d, hd, hcr⟩ | hnext
  · obtain rfl : sp = [] := List.length_eq_zero_iff.1 hlen
    exact length_le_of_unquoted_same (by simpa using hne) h (head_eq_of_alike hw hhead) ht hm
  · have hclass : isUnquoted d = false := by
      rcases isWhite_iff.1 (hsp' d hd) with rfl | rfl | rfl | rfl
      all_goals first | decide | exact absurd rfl hcr
    obtain ⟨r, sp₁, hr, hsp₁, rfl⟩ := matches_cat_ws_iff.1 hm
    have hdr : d ∉ r := fun hmem => by
      rw [(Regex.matches_plus_cls_iff.1 hr).2 d hmem] at hclass
      exact absurd hclass (by simp)
    obtain ⟨y, z, rfl⟩ := List.append_of_mem hd
    rw [← List.append_assoc] at ht ⊢
    exact length_le_of_white hdr hsp₁ (head_alike hw hhead) ht
  · rw [head_eq_of_alike hw hhead] at hnext
    have hhead' := head_alike hw hhead
    cases w' with
    | nil => simpa using ht.length_le
    | cons d w' =>
        rcases prefix_append_cons_cases ht with hle | ⟨z, -, rfl⟩
        · exact hle.length_le
        · -- the byte behind the white space would be a part of the value or white space
          obtain ⟨r, sp₁, hr, hsp₁, heq⟩ := matches_cat_ws_iff.1 hm
          have hd : d ∈ r ++ sp₁ := by simp [heq]
          rcases List.mem_append.1 hd with hd | hd
          · exact absurd ((Regex.matches_plus_cls_iff.1 hr).2 d hd) (by simp [hnext d rfl])
          · exact absurd (hsp₁ d hd) (by simp [hhead' d rfl])

lemma length_le_of_unquoted_behind (hl : l ∈ Label.spaced) (hcond : .attrval ∈ l.conds)
    (h : munch .attrval (x ++ sp ++ l.closing ++ w) scanRules
      = some ((x ++ sp ++ l.closing).length, l))
    (hne : x ≠ []) (hsp' : White sp') (hlen : sp.length = sp'.length)
    (hP : Allowed l sp sp' w.head?) (hmatch : l.pattern.Matches (x ++ sp' ++ l.closing))
    (hw : List.Forall₂ Alike w w') (ht : t <+: x ++ sp' ++ l.closing ++ w')
    (hm : Label.unquoted.pattern.Matches t) :
    t.length ≤ (x ++ sp' ++ l.closing).length := by
  cases l with
  | nmtoken =>
      simp only [Label.closing, List.append_nil] at h ht ⊢
      exact length_le_of_unquoted_stop h (Or.inl rfl) hne hsp' hlen hP hw ht hm
  | unquoted =>
      simp only [Label.closing, List.append_nil] at h ht ⊢
      exact length_le_of_unquoted_stop h (Or.inr rfl) hne hsp' hlen hP.2 hw ht hm
  | literal =>
      -- no such value begins with a quote
      obtain ⟨y, sp₁, hy, -, heq⟩ := matches_cat_ws_iff.1 hmatch
      obtain ⟨q, r, hq, -, rfl⟩ := matches_literal_iff.1 hy
      rw [← heq, List.append_assoc] at ht
      have hqt : q ∉ t := by
        rcases isQuote_iff.1 hq with rfl | rfl <;> exact hm.notMem (by decide)
      exact (length_le_of_isPrefix (x := []) ht hqt).trans (Nat.zero_le _)
  | _ => first | exact absurd hl (by decide) | exact absurd hcond (by decide)

/-- A piece with other white space is taken by the same rule. -/
lemma munch_behind (hc : c ≠ .cdata) (hl : l ∈ Label.spaced)
    (h : munch c (x ++ sp ++ l.closing ++ w) scanRules = some ((x ++ sp ++ l.closing).length, l))
    (hlast : ∃ a ∈ x.getLast?, isWhite a = false) (hsp : White sp) (hsp' : White sp')
    (hlen : sp.length = sp'.length) (hP : Allowed l sp sp' w.head?)
    (hw : List.Forall₂ Alike w w') :
    munch c (x ++ sp' ++ l.closing ++ w') scanRules = some ((x ++ sp' ++ l.closing).length, l) := by
  obtain ⟨-, hcond, hmatch, -⟩ := munch_label_cases h
  rw [List.take_left] at hmatch
  have halike : List.Forall₂ Alike (x ++ sp ++ l.closing) (x ++ sp' ++ l.closing) :=
    List.rel_append (List.rel_append (forall₂_alike_refl x) (forall₂_alike_of_white hsp hsp' hlen))
      (forall₂_alike_refl _)
  have hmatch' := matches_behind hl hmatch hlast hsp' halike
  have hne := ne_nil_of_last hlast
  have hchange := Label.changeable_of_spaced l hl
  refine munch_alike h (by simp [hne]) hc halike hw hmatch' (Or.inr hchange) ?_ ?_
  · obtain ⟨a, ha, hwhite⟩ := hlast
    exact Or.inr (Or.inl ⟨a, by simp [List.mem_of_getLast? ha], hwhite⟩)
  · rintro rfl t ht hm
    exact length_le_of_unquoted_behind hl hcond h hne hsp' hlen hP hmatch' hw ht hm

/-! ### States side by side -/

/-- The two states differ in the warnings, and in names and name tokens. -/
structure Similar (s s' : State) : Prop where
  cond : s.cond = s'.cond
  tokens : List.Forall₂ HtmlLexer.Agree s.tokens s'.tokens
  lexer : s.lexer.quiet = s'.lexer.quiet

lemma Similar.refl (s : State) : Similar s s :=
  ⟨rfl, List.forall₂_same.2 fun i _ => .refl i, rfl⟩

lemma Similar.trans {r s t : State} (hrs : Similar r s) (hst : Similar s t) : Similar r t := by
  have htrans : ∀ is js ks, List.Forall₂ HtmlLexer.Agree is js →
      List.Forall₂ HtmlLexer.Agree js ks →
      List.Forall₂ HtmlLexer.Agree is ks := by
    intro is js ks h
    induction h generalizing ks with
    | nil => exact id
    | cons hij _ ih =>
        intro h'
        cases h' with
        | cons hjk h' => exact .cons (hij.trans hjk) (ih _ h')
  exact ⟨hrs.cond.trans hst.cond, htrans _ _ _ hrs.tokens hst.tokens, hrs.lexer.trans hst.lexer⟩

lemma kept_similar (e : EntityHandler) : (tokenizer e).Kept Similar := by
  refine kept_of_parts (fun _ _ h => h.cond) (fun _ _ _ h => ⟨rfl, h.tokens, h.lexer⟩) ?_ ?_ ?_
  · intro s s' type text b hs
    exact ⟨hs.cond, List.rel_append hs.tokens (.cons (.refl _) .nil), hs.lexer⟩
  · intro s s' hs
    refine ⟨hs.cond, .nil, ?_⟩
    show (s.lexer.process s.tokens).quiet = (s'.lexer.process s'.tokens).quiet
    rw [← HtmlLexer.discreet_process s.lexer, hs.lexer, HtmlLexer.discreet_process,
      HtmlLexer.process_agree hs.tokens]
  · intro s s' warning text hs
    exact ⟨hs.cond, hs.tokens, hs.lexer⟩

/-! ### The action on a piece with other white space -/

lemma stripBlanks_congr (h : stripBlanks sp = stripBlanks sp') :
    stripBlanks (x ++ sp) = stripBlanks (x ++ sp') := rdropWhile_append_congr h

lemma stripBlanks_drop_congr {k : ℕ} (hk : k < x.length) (h : stripBlanks sp = stripBlanks sp') :
    stripBlanks ((x ++ sp).drop k) = stripBlanks ((x ++ sp').drop k) := by
  rw [List.drop_append_of_le_length hk.le, List.drop_append_of_le_length hk.le]
  exact stripBlanks_congr h

/-- A piece has `k` bytes in front of its white space if there is another byte behind them. -/
lemma lt_length_of_mem {k : ℕ} {z : Str} (hmem : a ∈ (x ++ z).drop k) (hz : a ∉ z) :
    k < x.length := by
  by_contra hle
  rw [List.drop_append, List.drop_of_length_le (by omega), List.nil_append] at hmem
  exact hz (List.mem_of_mem_drop hmem)

/-- The bytes behind the delimiter at the start of a tag. -/
lemma lt_length_of_tag {d : Str} (h : (Regex.cat [delim d, name, ws]).Matches (x ++ sp))
    (hsp : White sp) : d.length < x.length := by
  obtain ⟨y, z, hy, hz, heq⟩ := Regex.matches_seq_iff.1 h
  rw [matches_delim_iff.1 hy] at heq
  obtain ⟨n, sp₁, hn, -, rfl⟩ := matches_cat_ws_iff.1 hz
  obtain ⟨a, m, ha, -, rfl⟩ := matches_name_iff.1 hn
  refine lt_length_of_mem (a := a) (z := sp) ?_ fun hmem => ?_
  · rw [← heq, List.drop_left]
    simp
  · exact ne_of_isNameChar (isNameChar_of_isNameStart ha) (isNameChar_of_isWhite (hsp a hmem)) rfl

lemma lt_length_of_scriptEnd (h : Label.scriptEnd.pattern.Matches (x ++ (sp ++ tagc)))
    (hsp : White sp) : 2 < x.length := by
  obtain ⟨w₁, k, w₂, -, hk, -, heq⟩ := matches_scriptEnd h
  obtain ⟨a, k', rfl⟩ : ∃ a k', k = a :: k' := List.exists_cons_of_ne_nil (by
    rintro rfl
    exact absurd hk (by decide))
  have ha := isNameChar_of_script hk a List.mem_cons_self
  refine lt_length_of_mem (a := a) (z := sp ++ tagc) (by rw [heq]; simp) ?_
  rw [List.mem_append, not_or]
  exact ⟨fun hmem => ne_of_isNameChar ha (isNameChar_of_isWhite (hsp a hmem)) rfl,
    fun hmem => ne_of_isNameChar ha (by decide) (List.mem_singleton.1 hmem)⟩

/-- The white space of the end tag of a script is stripped together with its last byte. -/
lemma rdropWhile_tagc (hsp : White sp) :
    (sp ++ tagc).rdropWhile (fun c => isStripped c || c == 0x3E) = stripBlanks sp := by
  rw [tagc, List.rdropWhile_concat_pos _ _ _ (by decide)]
  induction sp using List.reverseRecOn with
  | nil => rfl
  | append_singleton sp c ih =>
      have hc : (isStripped c || c == 0x3E) = isStripped c := by
        rcases isWhite_iff.1 (hsp c (by simp)) with rfl | rfl | rfl | rfl <;> decide
      rw [stripBlanks, List.rdropWhile_concat, List.rdropWhile_concat, hc,
        ih fun d hd => hsp d (by simp [hd])]
      rfl

lemma scriptEndText_congr (h : Label.scriptEnd.pattern.Matches (x ++ (sp ++ tagc)))
    (hlast : ∃ a ∈ x.getLast?, isWhite a = false) (hsp : White sp) (hsp' : White sp')
    (hstrip : stripBlanks sp = stripBlanks sp') :
    scriptEndText (x ++ (sp ++ tagc)) = scriptEndText (x ++ (sp' ++ tagc)) := by
  have hlen := lt_length_of_scriptEnd h hsp
  obtain ⟨a, ha, hwhite⟩ := hlast
  have hstop : ((x.drop 2).dropWhile (· == 0x20)).isEmpty = false := by
    rw [List.isEmpty_eq_false_iff, Ne, List.dropWhile_eq_nil_iff]
    intro hall
    have hmem : a ∈ x.drop 2 := by
      refine List.mem_of_getLast? ?_
      rwa [List.getLast?_drop, if_neg (by omega)]
    obtain rfl := beq_iff_eq.1 (hall a hmem)
    exact absurd hwhite (by decide)
  have hdrop : ∀ z, (x.drop 2 ++ z).dropWhile (· == 0x20) = (x.drop 2).dropWhile (· == 0x20) ++ z :=
    fun z => by rw [List.dropWhile_append, hstop, if_neg Bool.false_ne_true]
  rw [scriptEndText, scriptEndText, List.drop_append_of_le_length hlen.le,
    List.drop_append_of_le_length hlen.le, hdrop, hdrop]
  exact rdropWhile_append_congr (by rw [rdropWhile_tagc hsp, rdropWhile_tagc hsp', hstrip])

lemma act_behind (e : EntityHandler) (hl : l ∈ Label.spaced)
    (hmatch : l.pattern.Matches (x ++ sp ++ l.closing))
    (hlast : ∃ a ∈ x.getLast?, isWhite a = false) (hsp : White sp) (hsp' : White sp')
    {d : Option UInt8} (hP : Allowed l sp sp' d) (s : State) :
    Similar ((tokenizer e).act s l (x ++ sp ++ l.closing))
      ((tokenizer e).act s l (x ++ sp' ++ l.closing)) := by
  have hname : ∀ (type : SgmlTok) (y z : Str) (b : Bool) (c : Cond),
      type = .name ∨ type = .nmtoken →
      Similar { s.addtoken e type y b with cond := c }
        { s.addtoken e type z b with cond := c } := by
    intro type y z b c htype
    refine ⟨rfl, List.rel_append (Similar.refl s).tokens (.cons ⟨rfl, ?_⟩ .nil), rfl⟩
    exact htype.imp_right Or.inl
  cases l with
  | startTag =>
      simp only [Label.closing, List.append_nil] at hmatch ⊢
      have htext : stripBlanks ((x ++ sp).drop 1) = stripBlanks ((x ++ sp').drop 1) :=
        stripBlanks_drop_congr (lt_length_of_tag hmatch hsp) hP
      simp only [tokenizer, State.emit, next, htext]
      exact .refl _
  | endTag =>
      simp only [Label.closing, List.append_nil] at hmatch ⊢
      have htext : stripBlanks ((x ++ sp).drop 2) = stripBlanks ((x ++ sp').drop 2) :=
        stripBlanks_drop_congr (lt_length_of_tag hmatch hsp) hP
      simp only [tokenizer, State.emit, next, htext]
      exact .refl _
  | scriptEnd =>
      simp only [Label.closing, List.append_assoc] at hmatch ⊢
      simp only [tokenizer, State.emit, next, scriptEndText_congr hmatch hlast hsp hsp' hP]
      exact .refl _
  | literal =>
      have htext : stripBlanks (x ++ sp) = stripBlanks (x ++ sp') := stripBlanks_congr hP
      simp only [Label.closing, List.append_nil, tokenizer, State.emit, next, unquote, htext]
      exact .refl _
  | unquoted =>
      have htext : stripBlanks (x ++ sp) = stripBlanks (x ++ sp') := stripBlanks_congr hP.1
      simp only [Label.closing, List.append_nil, tokenizer, State.emit, next, htext]
      exact .refl _
  | name => exact hname .name _ _ _ _ (Or.inl rfl)
  | nmtoken => exact hname .nmtoken _ _ _ _ (Or.inr rfl)
  | _ => exact absurd hl (by decide)

/-! ### White space by itself -/

lemma not_matches_white (hl : l ∈ [Label.attrname, .name, .tagClose, .netClose, .unclosed])
    (ha : isWhite a = true) : ¬l.pattern.Matches (a :: u) := by
  refine Regex.not_matches_of_first (u := []) ?_
  rcases isWhite_iff.1 ha with rfl | rfl | rfl | rfl <;> revert l <;> decide

/-- Inside a tag white space is skipped, or a bad character. -/
lemma munch_white (hc : c = .attr ∨ c = .tag) (hsp : White sp) (hne : sp ≠ [])
    (hw : ∀ a ∈ w.head?, isWhite a = false) :
    ∃ n l, munch c (sp ++ w) scanRules = some (n, l) ∧ 0 < n ∧ n ≤ sp.length ∧
      l ∈ [Label.badCharacter, .newlines, .unmatched] := by
  have hne' : sp ++ w ≠ [] := by simp [hne]
  obtain ⟨n, l, hmunch⟩ := exists_munch c hne'
  have hpos := munch_pos hmunch hne'
  obtain ⟨hle, hcond, hmatch, -⟩ := munch_label_cases hmunch
  refine ⟨n, l, hmunch, hpos, ?_⟩
  obtain ⟨a, sp, rfl⟩ := List.exists_cons_of_ne_nil hne
  obtain ⟨m, rfl⟩ : ∃ m, n = m + 1 := ⟨n - 1, by omega⟩
  have ha := hsp a List.mem_cons_self
  cases l with
  | attrname | name | tagClose | netClose | unclosed =>
      exact absurd hmatch (not_matches_white (by decide) ha)
  | badCharacter | unmatched =>
      obtain ⟨b, -, hb⟩ := Regex.matches_cls_iff.1 hmatch
      have hlen := congrArg List.length hb
      rw [List.length_take_of_le hle, List.length_singleton] at hlen
      exact ⟨by simp; omega, by decide⟩
  | newlines =>
      refine ⟨?_, by decide⟩
      obtain ⟨-, hnl⟩ := Regex.matches_plus_cls_iff.1 hmatch
      cases w with
      | nil => simpa using hle
      | cons b w =>
          have hpre := List.take_prefix (m + 1) (a :: sp ++ b :: w)
          rcases prefix_append_cons_cases hpre with h | ⟨t, -, h⟩
          · rw [← List.length_take_of_le hle]
            exact h.length_le
          · have hb := hnl b (by rw [h]; simp)
            simp only [Bool.or_eq_true, beq_iff_eq] at hb
            have hwhite := hw b rfl
            rcases hb with rfl | rfl <;> exact absurd hwhite (by decide)
  | _ => rcases hc with rfl | rfl <;> exact absurd hcond (by decide)

/-- A run over white space inside a tag changes the warnings at most. -/
lemma run_white (e : EntityHandler) {s : State} (hc : s.cond = .attr ∨ s.cond = .tag)
    (hsp : White sp) (hw : ∀ a ∈ w.head?, isWhite a = false) :
    ∃ x, (tokenizer e).run steps s (sp ++ w) =
      (tokenizer e).run steps { s with lexer := { s.lexer with warnings := x } } w := by
  induction hk : sp.length using Nat.strong_induction_on generalizing sp s with
  | _ k ih =>
      by_cases hne : sp = []
      · exact ⟨s.lexer.warnings, by rw [hne, List.nil_append]⟩
      obtain ⟨n, l, hmunch, hpos, hle, hl⟩ := munch_white hc hsp hne hw
      have hpiece : munch s.cond (sp.take n ++ (sp.drop n ++ w)) scanRules =
          some ((sp.take n).length, l) := by
        rw [← List.append_assoc, List.take_append_drop, List.length_take_of_le hle, hmunch]
      have htake : sp.take n ≠ [] := by
        rw [← List.length_pos_iff, List.length_take_of_le hle]
        exact hpos
      have htrail := trail_eq_zero (by rcases hc with h | h <;> rw [h] <;> decide) hmunch
      -- the state stays but for the warnings
      obtain ⟨x, hx⟩ : ∃ x, { s.emit e l (sp.take n) with cond := next s.cond l (sp.take n) } =
          { s with lexer := { s.lexer with warnings := x } } := by
        simp only [List.mem_cons, List.not_mem_nil, or_false] at hl
        rcases hl with rfl | rfl | rfl
        · exact ⟨_, rfl⟩
        · exact ⟨s.lexer.warnings, rfl⟩
        · exact ⟨_, rfl⟩
      have hrun := run_append e htake htrail hpiece
      rw [← List.append_assoc, List.take_append_drop, hx] at hrun
      obtain ⟨y, hy⟩ := ih (sp.drop n).length (by rw [List.length_drop]; omega)
        (s := { s with lexer := { s.lexer with warnings := x } }) hc
        (fun a ha => hsp a (List.mem_of_mem_drop ha)) rfl
      exact ⟨y, hrun.trans hy⟩

/-! ### Whole documents -/

lemma Label.notMem_conds_of_spaced : ∀ l ∈ spaced, .cdata ∉ l.conds := by decide

/-- A section goes on, or the scanner is back in the document. -/
lemma next_of_cdata (hl : .cdata ∈ l.conds) :
    next .cdata l u = .cdata ∨ next .cdata l u = .initial := by
  cases l with
  | cdataClose | cdataSmallClose => exact Or.inr rfl
  | cdataUnmatched | newlines | unmatched => exact Or.inl rfl
  | _ => exact absurd hl (by decide)

theorem run_similar (e : EntityHandler) (h : Respaced Allowed c w w') {s s' : State}
    (hs : Similar s s') (hcond : s.cond = c) :
    Similar ((tokenizer e).run steps s w) ((tokenizer e).run steps s' w') := by
  induction h generalizing s s' with
  | nil c => rwa [Tokenizer.run_nil, Tokenizer.run_nil]
  | @same c l u w w' hne hmunch hwhite hP hrest ih =>
      have hmunch' : munch c (u ++ w') scanRules = some (u.length + trail l, l) := by
        by_cases hc : c = .cdata
        · subst hc
          have hnext := next_of_cdata (u := u) (munch_label_cases hmunch).2.1
          have hhead : w.head? = w'.head? := by
            refine hrest.head_eq ?_ ?_ ?_ <;> rcases hnext with h | h <;> simp [h]
          exact munch_section hne hmunch hhead (hP rfl)
        · have htrail := trail_eq_zero hc hmunch
          rw [htrail, Nat.add_zero] at hmunch ⊢
          exact munch_same hc hwhite (ne_nil_of_munch hne hmunch) hmunch hrest
      have hne' : u ++ w' ≠ [] := by
        rw [← List.length_pos_iff, List.length_append, ← hrest.alike.length_eq,
          ← List.length_append]
        exact List.length_pos_iff.2 hne
      rw [run_append_trail e hne (hcond ▸ hmunch),
        run_append_trail e hne' (hs.cond ▸ hcond ▸ hmunch')]
      refine ih ((kept_similar e).act s s' l u hs) ?_
      rw [hcond]
  | @behind c l x sp sp' w w' hl hmunch hlast hsp hsp' hlen hP hrest ih =>
      obtain ⟨-, hc, hmatch, -⟩ := munch_label_cases hmunch
      have hcdata : c ≠ .cdata := by
        rintro rfl
        exact Label.notMem_conds_of_spaced l hl hc
      have hmunch' := munch_behind hcdata hl hmunch hlast hsp hsp' hlen hP hrest.alike
      rw [List.take_left] at hmatch
      have hne : ∀ sp : Str, x ++ sp ++ l.closing ≠ [] := fun sp => by simp [ne_nil_of_last hlast]
      have htrail := trail_eq_zero hcdata hmunch
      rw [run_append e (hne sp) htrail (hcond ▸ hmunch),
        run_append e (hne sp') htrail (hs.cond ▸ hcond ▸ hmunch')]
      refine ih ?_ (by rw [hcond])
      exact ((kept_similar e).act s s' l _ hs).trans (act_behind e hl hmatch hlast hsp hsp' hP s')
  | @between c sp sp' w w' htag hsp hsp' hlen hhead hrest ih =>
      obtain ⟨x, hx⟩ := run_white e (hcond ▸ htag) hsp hhead
      obtain ⟨x', hx'⟩ := run_white e (s := s') (hs.cond ▸ hcond ▸ htag) hsp'
        (head_alike hrest.alike hhead)
      rw [hx, hx']
      exact ih ⟨hs.cond, hs.tokens, hs.lexer⟩ hcond
  | @script u u' w w' hmunch halike hrest ih =>
      by_cases hu : u = []
      · subst hu
        cases halike
        exact ih hs hcond
      · have hmatch := (munch_label_cases hmunch).2.2.1
        rw [List.take_left] at hmatch
        have hu' : u' ≠ [] := by
          rw [← List.length_pos_iff, ← halike.length_eq]
          exact List.length_pos_iff.2 hu
        have hmunch' := munch_alike hmunch hu (by decide) halike hrest.alike
          (matches_alike (by decide) halike hmatch) (Or.inr (by decide)) (Or.inl rfl)
          (fun h => absurd h (by decide))
        rw [run_append e hu rfl (hcond ▸ hmunch), run_append e hu' rfl (hs.cond ▸ hcond ▸ hmunch')]
        exact ih ⟨hs.cond, hs.tokens, hs.lexer⟩ hcond

/-- What is read from a document: text, links and analysis. -/
def ProcHtml.content (r : ProcHtml) : Str × Str × Analysis := (r.text, r.links, r.analysis)

/-- An anchor with some white space behind its name, and a section. -/
def anchor (sp : Str) : Str :=
  (lit "<a" ++ sp ++ []) ++ (lit "href=" ++ (lit "\"x\"" ++ (lit ">" ++ (lit "t" ++ (lit "</a" ++
    (lit ">" ++ (cdatao ++ (lit "y" ++ (cdatac ++ [])))))))))

lemma respaced_anchor (hP : ∀ w, P .cdataClose w w none) (hb : isWhite b = true)
    (hstart : ∀ d, P .startTag [0x20] [b] d) :
    Respaced P .initial (anchor [0x20]) (anchor [b]) := by
  have hwhite : ∀ d, isWhite d = true → White [d] :=
    fun d hd a ha => by rwa [List.mem_singleton.1 ha]
  refine .behind (l := .startTag) (by decide) (by decide) (by decide) (hwhite _ (by decide))
    (hwhite b hb) rfl (hstart _) ?_
  have hnext : next .initial .startTag (lit "<a" ++ [0x20] ++ Label.startTag.closing) = .attr := by
    decide
  have hhead : ∀ d : UInt8, isWhite d = false → ∀ a ∈ some d, isWhite a = false := by simp
  rw [hnext]
  refine .same (l := .attrname) (by decide) (by decide) (fun _ => hhead 0x68 (by decide))
    (fun _ => hP _) ?_
  refine .same (l := .literal) (by decide) (by decide) (by decide) (fun _ => hP _) ?_
  refine .same (l := .tagClose) (by decide) (by decide) (fun _ => hhead 0x3E (by decide))
    (fun _ => hP _) ?_
  refine .same (l := .data) (by decide) (by decide) (by decide) (fun _ => hP _) ?_
  refine .same (l := .endTag) (by decide) (by decide) (by decide) (fun _ => hP _) ?_
  refine .same (l := .tagClose) (by decide) (by decide) (fun _ => hhead 0x3E (by decide))
    (fun _ => hP _) ?_
  refine .same (l := .cdataOpen) (by decide) (by decide) (by decide) (fun _ => hP _) ?_
  refine .same (l := .cdataClose) (by decide) (by decide) (by decide) (fun _ => hP _) ?_
  refine .same (l := .markedSectionEnd) (by decide) (by decide) (by decide) (fun _ => hP _) ?_
  exact .nil _

end Html

end Mycelium
