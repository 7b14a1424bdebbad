import Mycelium.Html.Entities
import Mycelium.Html.EntityValues

/-!
# Replacing the references of an escaped text

A text in which every `&` has been written as `&amp;` is to come back from
`Entity_handler::replace_all_entities`.  The first of the three passes gives the text back; the
other two then look for numeric references in it.  A reference is longer than what it stands for, so
that the text comes back if and only if it has no numeric reference.
-/

namespace Mycelium

/-! ### The escaped text -/

/-- The text with every `&` replaced by `&amp;`. -/
def escapeAmp (s : Str) : Str := s.flatMap fun c => if c = 0x26 then lit "&amp;" else [c]

namespace EntityHandler

/-- The handler is one that the constructor makes: its table is the one of the source, the numeric
references that are read without an error have the value that is read, and whatever an `int` does
outside its range, the value is empty or comes from `cp2utf8`. -/
structure Standard (icu : Icu) (h : EntityHandler) : Prop where
  charEntity_eq : ∃ charent, icu.charent = some charent ∧ h.charEntity = Icu.charEntity charent
  decNumcharRef_eq : ∀ str v, icu.decNumcharRef str = some v → h.decNumcharRef str = v
  hexNumcharRef_eq : ∀ str v, icu.hexNumcharRef str = some v → h.hexNumcharRef str = v
  length_decNumcharRef : ∀ str, (h.decNumcharRef str).length ≤ 4
  length_hexNumcharRef : ∀ str, (h.hexNumcharRef str).length ≤ 4

variable {icu : Icu} {h : EntityHandler}

lemma Standard.charEntity_amp (hh : h.Standard icu) : h.charEntity (lit "amp") = lit "&" := by
  obtain ⟨charent, hcharent, hentity⟩ := hh.charEntity_eq
  have htable : Icu.charentTable.lookup (lit "amp") = some 0x26 := by decide
  rw [hentity, Icu.charEntity, Icu.lookup_charent hcharent, htable, Option.bind_some,
    icu.cp2utf8_ascii (by decide)]
  rfl

/-- The first pass gives the text back. -/
lemma replaceCharEntities_escapeAmp (hamp : h.charEntity (lit "amp") = lit "&") (s : Str) :
    h.replaceCharEntities (escapeAmp s) = s := by
  induction s with
  | nil => rfl
  | cons c s ih =>
      rw [escapeAmp, List.flatMap_cons, ← escapeAmp]
      split
      · rename_i hc
        have hcut : lit "&amp;" ++ escapeAmp s = lit "&" ++ (lit "amp" ++ 0x3B :: escapeAmp s) :=
          rfl
        rw [replaceCharEntities, hcut, replaceLoop_ref (by decide) (by decide)
          ⟨List.all_eq_true.1 (by decide), by decide⟩, hamp, ← replaceCharEntities, ih, hc]
        rfl
      · rename_i hc
        have hnone : refAt (lit "&") isNameStart isNameChar (c :: escapeAmp s) = none :=
          refAt_of_head?_ne fun hhead => hc (Option.some.inj hhead)
        rw [List.singleton_append, replaceCharEntities, replaceLoop_cons_of_none hnone,
          ← replaceCharEntities, ih]

/-- A decimal reference with one digit stands for one byte. -/
lemma Standard.length_digit (hh : h.Standard icu) {c : UInt8} (hc : isDigit c = true) :
    (h.decNumcharRef [c]).length = 1 := by
  have hdigit := Icu.decDigit_lt hc
  have hvalue : Icu.decValue [c] = Icu.decDigit c := by simp [Icu.decValue]
  have hmax : Icu.decValue [c] ≤ Icu.ucharMaxValue := by
    rw [hvalue, Icu.ucharMaxValue]
    omega
  have hdef : Icu.DecDefined [c] := Or.inl ⟨hmax, by simp⟩
  have href : icu.decNumcharRef [c] = _ := Icu.decNumcharRef_eq icu (by simpa using hc)
  rw [if_pos hdef, Icu.refValue, if_pos hmax, hvalue, icu.cp2utf8_ascii (by omega)] at href
  rw [hh.decNumcharRef_eq _ _ href]
  rfl

lemma Standard.shortens_dec (hh : h.Standard icu) :
    Shortens (lit "&#") isDigit isDigit h.decNumcharRef := by
  intro e he
  obtain ⟨hne, hmem⟩ := isRef_self_iff.1 he
  have hlen := hh.length_decNumcharRef e
  have hopen : (lit "&#").length = 2 := rfl
  obtain ⟨c, t, rfl⟩ := List.exists_cons_of_ne_nil hne
  cases t with
  | nil =>
      rw [hh.length_digit (hmem c (by simp))]
      omega
  | cons d t =>
      simp only [List.length_cons] at hlen ⊢
      omega

lemma Standard.shortens_hex (hh : h.Standard icu) :
    Shortens (lit "&#x") isXDigit isXDigit h.hexNumcharRef := by
  intro e he
  have hlen := hh.length_hexNumcharRef e
  have hopen : (lit "&#x").length = 3 := rfl
  have hne := List.length_pos_iff.2 (isRef_self_iff.1 he).1
  omega

/-- A decimal or hexadecimal reference in a text. -/
def HasNumericRef (s : Str) : Prop :=
  ∃ e, e ≠ [] ∧ (((∀ c ∈ e, isDigit c = true) ∧ lit "&#" ++ (e ++ lit ";") <:+: s) ∨
    ((∀ c ∈ e, isXDigit c = true) ∧ lit "&#x" ++ (e ++ lit ";") <:+: s))

lemma not_hasNumericRef_iff {s : Str} : ¬HasNumericRef s ↔
    NoRef (lit "&#") isDigit isDigit s ∧ NoRef (lit "&#x") isXDigit isXDigit s := by
  rw [noRef_iff (by decide), noRef_iff (by decide)]
  simp only [isRef_self_iff]
  constructor
  · intro hno
    exact ⟨fun e he href => hno ⟨e, he.1, Or.inl ⟨he.2, href⟩⟩,
      fun e he href => hno ⟨e, he.1, Or.inr ⟨he.2, href⟩⟩⟩
  · rintro ⟨hdec, hhex⟩ ⟨e, hne, ⟨hmem, href⟩ | ⟨hmem, href⟩⟩
    · exact hdec e ⟨hne, hmem⟩ href
    · exact hhex e ⟨hne, hmem⟩ href

/-- An escaped text comes back if and only if the text has no numeric reference. -/
theorem replaceAllEntities_escapeAmp_iff (icu : Icu) (h : EntityHandler) (hh : h.Standard icu)
    (s : Str) : h.replaceAllEntities (escapeAmp s) = s ↔ ¬HasNumericRef s := by
  rw [replaceAllEntities, replaceCharEntities_escapeAmp hh.charEntity_amp, not_hasNumericRef_iff]
  have hhex := hh.shortens_hex
  by_cases hdec : NoRef (lit "&#") isDigit isDigit s
  · have hpass : h.replaceDecNumcharRef s = s := replaceLoop_of_noRef hdec
    rw [hpass, replaceHexNumcharRef, replaceLoop_eq_self_iff (by decide) (by decide) hhex]
    simp [hdec]
  · -- the second pass has made the text shorter, and the third one does not make it longer
    have hshort := (length_replaceLoop (by decide) (by decide) hh.shortens_dec s).2 hdec
    have hle := (length_replaceLoop (by decide) (by decide) hhex (h.replaceDecNumcharRef s)).1
    refine iff_of_false (fun heq => ?_) fun hno => hdec hno.1
    rw [← replaceDecNumcharRef] at hshort
    rw [← replaceHexNumcharRef, heq] at hle
    omega

/-- A handler whose numeric references have no value after an error. -/
def standard (icu : Icu) : EntityHandler where
  charEntity := Icu.charEntity (icu.charent.getD [])
  decNumcharRef str := (icu.decNumcharRef str).getD []
  hexNumcharRef str := (icu.hexNumcharRef str).getD []

lemma length_getD_map_refResult (icu : Icu) (r : Option (Option ℕ)) :
    ((r.map icu.refResult).getD []).length ≤ 4 := by
  cases r with
  | none => exact Nat.zero_le 4
  | some r => exact icu.length_refResult r

lemma standard_standard (hcharent : ∃ m, icu.charent = some m) : (standard icu).Standard icu where
  charEntity_eq := by
    obtain ⟨m, hm⟩ := hcharent
    exact ⟨m, hm, by rw [standard, hm, Option.getD_some]⟩
  decNumcharRef_eq str v hv := by simp [standard, hv]
  hexNumcharRef_eq str v hv := by simp [standard, hv]
  length_decNumcharRef _ := length_getD_map_refResult icu _
  length_hexNumcharRef _ := length_getD_map_refResult icu _

theorem replaceAllEntities_escapeAmp_iff_link :
    (standard Icu.unicode).replaceAllEntities (escapeAmp (lit "a?b&c=&lt;")) =
      lit "a?b&c=&lt;" := by
  rw [replaceAllEntities_escapeAmp_iff Icu.unicode _ (standard_standard Icu.charent_unicode),
    not_hasNumericRef_iff]
  exact ⟨by decide, by decide⟩

/-- `&amp;#65;` is the escaped form of `&#65;`; the second pass makes it a letter. -/
theorem replaceAllEntities_escapeAmp_letter :
    (standard Icu.unicode).Standard Icu.unicode ∧
      (standard Icu.unicode).replaceAllEntities (escapeAmp (lit "&#65;")) = lit "A" := by
  have hh := standard_standard Icu.charent_unicode
  have hdec : (standard Icu.unicode).replaceDecNumcharRef (lit "&#65;") = lit "A" := by decide
  refine ⟨hh, ?_⟩
  rw [replaceAllEntities, replaceCharEntities_escapeAmp hh.charEntity_amp, hdec]
  decide

end EntityHandler

end Mycelium
