import Mycelium.Html.HtmlScanner

/-!
# White space and the rules

Two texts are alike if they differ in the kinds of their white space only.  Most rules match alike
pieces of them, because their classes take all white space or none.  The rules that do not are those
of a single byte, the one for line ends, and the one for values without quotes, which takes a
carriage return for a part of the value.

`munch_alike` says when the scanner takes alike pieces of alike texts.
-/

namespace Mycelium

open Lib

namespace Html

variable {a b : UInt8} {c : Cond} {l : Label} {t u u' w w' : Str}

/-! ### Alike texts -/

def Alike (a b : UInt8) : Prop := a = b ∨ isWhite a = true ∧ isWhite b = true

lemma Alike.symm (h : Alike a b) : Alike b a := h.imp Eq.symm And.symm

lemma Alike.isWhite_eq (h : Alike a b) : isWhite a = isWhite b := by
  rcases h with rfl | ⟨ha, hb⟩
  · rfl
  · rw [ha, hb]

lemma forall₂_alike_refl (u : Str) : List.Forall₂ Alike u u :=
  List.forall₂_same.2 fun _ _ => Or.inl rfl

lemma forall₂_alike_symm (h : List.Forall₂ Alike u u') : List.Forall₂ Alike u' u :=
  h.flip.imp fun _ _ => Alike.symm

lemma forall₂_alike_of_white (hu : White u) (hu' : White u') (hlen : u.length = u'.length) :
    List.Forall₂ Alike u u' := by
  rw [List.forall₂_iff_zip]
  refine ⟨hlen, fun {a b} hab => ?_⟩
  exact Or.inr ⟨hu a (List.of_mem_zip hab).1, hu' b (List.of_mem_zip hab).2⟩

/-- A beginning of one of two alike texts is alike a beginning of the other. -/
lemma exists_prefix_alike (h : List.Forall₂ Alike w w') (ht : t <+: w') :
    ∃ r, r <+: w ∧ List.Forall₂ Alike r t := by
  obtain ⟨z, rfl⟩ := ht
  exact ⟨w.take t.length, List.take_prefix _ _, List.forall₂_take_append w t z h⟩

lemma White.alike (hu : White u) (h : List.Forall₂ Alike u u') : White u' := by
  induction h with
  | nil => exact hu
  | cons hab _ ih =>
      obtain ⟨ha, hu⟩ := List.forall_mem_cons.1 hu
      exact List.forall_mem_cons.2 ⟨by rw [← hab.isWhite_eq]; exact ha, ih hu⟩

lemma notMem_alike (h : List.Forall₂ Alike u u') (hb : isWhite b = false) (hu : b ∉ u) :
    b ∉ u' := by
  induction h with
  | nil => exact hu
  | cons hab _ ih =>
      rw [List.mem_cons, not_or] at hu ⊢
      refine ⟨?_, ih hu.2⟩
      rintro rfl
      rcases hab with rfl | ⟨-, hwhite⟩
      · exact hu.1 rfl
      · rw [hwhite] at hb
        exact absurd hb (by simp)

/-! ### Rules that do not tell white space apart -/

/-- The class takes all white space or none. -/
def Uniform (p : UInt8 → Bool) : Prop := p 0x20 = p 0x0A ∧ p 0x20 = p 0x0D ∧ p 0x20 = p 0x09

instance : DecidablePred Uniform := fun _ => inferInstanceAs (Decidable (_ ∧ _))

lemma Uniform.alike {p : UInt8 → Bool} (hp : Uniform p) (h : Alike a b) (ha : p a = true) :
    p b = true := by
  obtain ⟨h₁, h₂, h₃⟩ := hp
  have hwhite : ∀ c, isWhite c = true → p c = p 0x20 := by
    intro c hc
    rcases isWhite_iff.1 hc with rfl | rfl | rfl | rfl
    · rfl
    · exact h₁.symm
    · exact h₂.symm
    · exact h₃.symm
  rcases h with rfl | ⟨hwa, hwb⟩
  · exact ha
  · rwa [hwhite b hwb, ← hwhite a hwa]

/-- The rules that match a text with one kind of white space and not with another. -/
def Label.sensitive : List Label :=
  [.cdataClose, .unquoted, .badCharacter, .commentData, .mdIllegal, .cdataUnmatched, .newlines,
    .unmatched]

/-- The end of the reference is white space, or a semicolon in front of it. -/
lemma matches_peroRef_iff : Label.peroRef.pattern.Matches u ↔
    (Regex.cat [delim pero, name, .opt (.chr 0x3B), ws]).Matches u := by
  have hend : ∀ v, (Regex.seq (.opt referenceEnd) ws).Matches v ↔
      (Regex.seq (.opt (.chr 0x3B)) ws).Matches v := by
    intro v
    simp only [Regex.matches_seq_iff, Regex.matches_opt_iff, referenceEnd, Regex.matches_alt_iff,
      matches_ws_iff]
    constructor
    · rintro ⟨x, sp, (h | h) | rfl, hsp, rfl⟩
      · exact ⟨x, sp, Or.inl h, hsp, rfl⟩
      · obtain ⟨d, hd, rfl⟩ := Regex.matches_cls_iff.1 h
        obtain rfl := beq_iff_eq.1 hd
        exact ⟨[], 0x0A :: sp, Or.inr rfl, List.forall_mem_cons.2 ⟨by decide, hsp⟩, rfl⟩
      · exact ⟨[], sp, Or.inr rfl, hsp, rfl⟩
    · rintro ⟨x, sp, h | rfl, hsp, rfl⟩
      · exact ⟨x, sp, Or.inl (Or.inl h), hsp, rfl⟩
      · exact ⟨[], sp, Or.inr rfl, hsp, rfl⟩
  have hname : ∀ v, (Regex.seq name (.seq (.opt referenceEnd) ws)).Matches v ↔
      (Regex.seq name (.seq (.opt (.chr 0x3B)) ws)).Matches v := by
    intro v
    rw [Regex.matches_seq_iff, Regex.matches_seq_iff]
    simp only [hend]
  show (Regex.seq (delim pero) (.seq name (.seq (.opt referenceEnd) ws))).Matches u ↔
    (Regex.seq (delim pero) (.seq name (.seq (.opt (.chr 0x3B)) ws))).Matches u
  rw [Regex.matches_seq_iff, Regex.matches_seq_iff]
  simp only [hname]

/-- The other rules match alike texts. -/
lemma matches_alike (hl : l ∉ Label.sensitive) (h : List.Forall₂ Alike u u')
    (hu : l.pattern.Matches u) : l.pattern.Matches u' := by
  have huniform : ∀ r : Regex UInt8, r.AllCls Uniform → r.Matches u → r.Matches u' := fun r hr hm =>
    hm.forall₂ (hr.mono fun p hp a b => hp.alike (a := a) (b := b)) h
  cases l with
  | data | scriptData =>
      rw [Label.pattern, matches_dataRe_iff] at hu ⊢
      rw [← h.length_eq]
      exact hu.imp_left fun hlt => notMem_alike h (by decide) hlt
  | peroRef =>
      rw [matches_peroRef_iff] at hu ⊢
      exact huniform _ (by decide) hu
  | _ => first | exact absurd (by decide) hl | exact huniform _ (by decide) hu

/-! ### Alike pieces -/

/-- The rules whose pieces can have their white space exchanged. -/
def Label.changeable : List Label :=
  [.startTag, .endTag, .scriptEnd, .scriptData, .name, .nmtoken, .literal, .unquoted]

lemma eq_cdataClose_of_sensitive {l' : Label} (hl : l ∈ Label.changeable)
    (hl' : l' ∈ Label.all.takeWhile (· != l)) (hsens : l' ∈ Label.sensitive) :
    l' = .cdataClose := by
  have hall : ∀ l ∈ Label.changeable, ∀ l' ∈ Label.all.takeWhile (· != l), l' ∈ Label.sensitive →
      l' = .cdataClose := by decide
  exact hall l hl l' hl' hsens

/-- Line ends do not go on behind the piece. -/
lemma length_le_of_newlines (h : munch c (u ++ w) scanRules = some (u.length, l))
    (hu : List.Forall₂ Alike u u') (hw : List.Forall₂ Alike w w')
    (hstop : c = .script ∨ (∃ a ∈ u', isWhite a = false) ∨ u = u' ∧ w.head? = w'.head?)
    (ht : t <+: u' ++ w') (hmatch : Label.newlines.pattern.Matches t) : t.length ≤ u'.length := by
  obtain ⟨hne, hnl⟩ := Regex.matches_plus_cls_iff.1 hmatch
  have hwhite : White t := fun a ha => by
    have := hnl a ha
    simp only [Bool.or_eq_true, beq_iff_eq] at this
    rcases this with rfl | rfl <;> decide
  obtain ⟨-, hcond, -, hmost⟩ := munch_label_cases h
  rcases hstop with rfl | ⟨a, ha, hstop⟩ | ⟨rfl, hhead⟩
  · -- inside a script they would be data
    obtain ⟨r, hr, halike⟩ := exists_prefix_alike (List.rel_append hu hw) ht
    have hdata : Label.scriptData.pattern.Matches r := matches_dataRe_iff.2 (Or.inl fun hmem =>
      absurd (hwhite.alike (forall₂_alike_symm halike) _ hmem) (by decide))
    rw [← halike.length_eq, ← hu.length_eq]
    exact hmost .scriptData (by decide) r hr hdata
  · obtain ⟨x, z, rfl⟩ := List.append_of_mem ha
    rw [List.append_assoc, List.cons_append] at ht
    have hle := length_le_of_isPrefix ht fun hmem => by
      rw [hwhite a hmem] at hstop
      exact absurd hstop (by simp)
    rw [List.length_append]
    omega
  · cases w' with
    | nil => simpa using ht.length_le
    | cons b w' =>
        rcases prefix_append_cons_cases ht with hle | ⟨t, -, rfl⟩
        · exact hle.length_le
        · obtain ⟨z, rfl⟩ := List.head?_eq_some_iff.1 hhead
          refine absurd ?_ (not_matches_concat .newlines h (by cases c <;> decide))
          exact Regex.matches_plus_cls_iff.2 ⟨by simp, fun a ha => hnl a (by simp at ha ⊢; tauto)⟩

/-- The scanner takes alike pieces of alike texts. -/
theorem munch_alike (h : munch c (u ++ w) scanRules = some (u.length, l)) (hne : u ≠ [])
    (hc : c ≠ .cdata) (hu : List.Forall₂ Alike u u') (hw : List.Forall₂ Alike w w')
    (hmatch : l.pattern.Matches u') (hfirst : u = u' ∨ l ∈ Label.changeable)
    (hnewlines : c = .script ∨ (∃ a ∈ u', isWhite a = false) ∨ u = u' ∧ w.head? = w'.head?)
    (hunquoted : c = .attrval → ∀ t, t <+: u' ++ w' → Label.unquoted.pattern.Matches t →
      t.length ≤ u'.length) :
    munch c (u' ++ w') scanRules = some (u'.length, l) := by
  obtain ⟨-, hcond, -, hmost⟩ := munch_label_cases h
  have hpos : 1 ≤ u'.length := by
    rw [← hu.length_eq]
    exact List.length_pos_iff.2 hne
  refine munch_label hcond hmatch ?_ ?_
  · intro l' hl' hc' hm
    have hnot := munch_label_first h l' hl' hc'
    rw [List.take_left] at hnot
    rcases hfirst with rfl | hchange
    · exact hnot hm
    · by_cases hsens : l' ∈ Label.sensitive
      · obtain rfl := eq_cdataClose_of_sensitive hchange hl' hsens
        exact hc (List.mem_singleton.1 hc')
      · exact hnot (matches_alike hsens (forall₂_alike_symm hu) hm)
  · intro l' hc' t ht hm
    by_cases hsens : l' ∈ Label.sensitive
    · cases l' with
      | cdataClose | cdataUnmatched => exact absurd (List.mem_singleton.1 hc') hc
      | unquoted => exact hunquoted (List.mem_singleton.1 hc') t ht hm
      | newlines => exact length_le_of_newlines h hu hw hnewlines ht hm
      | badCharacter | commentData | mdIllegal | unmatched =>
          obtain ⟨b, -, rfl⟩ := Regex.matches_cls_iff.1 hm
          exact hpos
      | _ => exact absurd hsens (by decide)
    · obtain ⟨r, hr, halike⟩ := exists_prefix_alike (List.rel_append hu hw) ht
      rw [← halike.length_eq, ← hu.length_eq]
      exact hmost l' hc' r hr (matches_alike hsens (forall₂_alike_symm halike) hm)

end Html

end Mycelium
