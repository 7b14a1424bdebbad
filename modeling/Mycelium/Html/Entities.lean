import Mycelium.Common.Bytes

/-!
# References to characters

`Entity_handler::replace_all_entities` replaces the references in the content of a token in three
passes: named ones, decimal ones and hexadecimal ones.  The value of a reference, from a table of
names and a conversion to UTF-8 by a library, is a parameter.

A pass replaces every reference that it finds and goes on behind it (`replaceLoop_ref`); a text
without references stays as it is, and one with references becomes shorter if their values are
shorter than they are (`length_replaceLoop`).
-/

namespace Mycelium

/-- `class Entity_handler`: what is put in the place of a reference, by the text between its
delimiters. -/
structure EntityHandler where
  charEntity : Str → Str
  decNumcharRef : Str → Str
  hexNumcharRef : Str → Str

/-- The text between the delimiters of a reference at the start of `s`.  The last delimiter is none
of the bytes that `more` accepts, so that the match has no choice. -/
def refAt (opening : Str) (first more : UInt8 → Bool) (s : Str) : Option Str :=
  let rest := s.drop opening.length
  let entity := rest.takeWhile more
  if opening.isPrefixOf s && entity.head?.any first && (rest.dropWhile more).head? == some 0x3B then
    some entity
  else none

/-- The loop of the passes: the first reference in the text is replaced, and the search goes on
behind it.  `skip` is the number of bytes up to the end of the last reference. -/
def replaceLoop (opening : Str) (first more : UInt8 → Bool) (value : Str → Str) (skip : ℕ) :
    Str → Str
  | [] => []
  | c :: s =>
      match skip with
      | skip + 1 => replaceLoop opening first more value skip s
      | 0 =>
          match refAt opening first more (c :: s) with
          | some entity =>
              value entity
                ++ replaceLoop opening first more value (opening.length + entity.length) s
          | none => c :: replaceLoop opening first more value 0 s

/-! ### One pass -/

section
variable {opening e s t : Str} {first more : UInt8 → Bool} {value : Str → Str}

/-- The text between the delimiters of a reference. -/
structure IsRef (first more : UInt8 → Bool) (e : Str) : Prop where
  more_of_mem : ∀ c ∈ e, more c = true
  first_head : e.head?.any first = true

lemma isRef_self_iff {p : UInt8 → Bool} {e : Str} :
    IsRef p p e ↔ e ≠ [] ∧ ∀ c ∈ e, p c = true := by
  constructor
  · rintro ⟨hmem, hhead⟩
    refine ⟨?_, hmem⟩
    rintro rfl
    cases hhead
  · rintro ⟨hne, hmem⟩
    obtain ⟨c, t, rfl⟩ := List.exists_cons_of_ne_nil hne
    exact ⟨hmem, hmem c (by simp)⟩

/-- A reference at the start of a text. -/
lemma refAt_eq_some_iff (hmore : more 0x3B = false) :
    refAt opening first more s = some e ↔
      (∃ t, s = opening ++ (e ++ 0x3B :: t)) ∧ IsRef first more e := by
  constructor
  · intro h
    rw [refAt] at h
    split at h
    · rename_i hif
      simp only [Bool.and_eq_true, beq_iff_eq, List.isPrefixOf_iff_prefix] at hif
      obtain ⟨⟨⟨r, rfl⟩, hhead⟩, hstop⟩ := hif
      obtain rfl := Option.some.inj h
      rw [List.drop_left] at hhead hstop ⊢
      obtain ⟨t, ht⟩ := List.head?_eq_some_iff.1 hstop
      refine ⟨⟨t, ?_⟩, fun c hc => List.mem_takeWhile_imp hc, hhead⟩
      rw [← ht, List.takeWhile_append_dropWhile]
    · cases h
  · rintro ⟨⟨t, rfl⟩, hmem, hhead⟩
    have htake : (e ++ 0x3B :: t).takeWhile more = e := by
      rw [List.takeWhile_append_of_pos hmem, List.takeWhile_cons_of_neg (by simp [hmore]),
        List.append_nil]
    have hdrop : (e ++ 0x3B :: t).dropWhile more = 0x3B :: t := by
      rw [List.dropWhile_append_of_pos hmem, List.dropWhile_cons_of_neg (by simp [hmore])]
    simp [refAt, htake, hdrop, hhead, List.isPrefixOf_iff_prefix]

/-- A text with another first byte does not begin with a reference. -/
lemma refAt_of_head?_ne {d : UInt8} (h : s.head? ≠ some d) :
    refAt (d :: opening) first more s = none := by
  cases s with
  | nil => rfl
  | cons c s =>
      have hd : d ≠ c := fun hdc => h (by rw [hdc]; rfl)
      simp [refAt, List.isPrefixOf, hd]

lemma refAt_ref (hmore : more 0x3B = false) (he : IsRef first more e) :
    refAt opening first more (opening ++ (e ++ 0x3B :: t)) = some e :=
  (refAt_eq_some_iff hmore).2 ⟨⟨t, rfl⟩, he⟩

lemma replaceLoop_skip (u v : Str) :
    replaceLoop opening first more value u.length (u ++ v) =
      replaceLoop opening first more value 0 v := by
  induction u with
  | nil => rfl
  | cons c u ih => rw [List.length_cons, List.cons_append, replaceLoop, ih]

/-- A reference is replaced, and the pass goes on behind it. -/
lemma replaceLoop_ref (hmore : more 0x3B = false) (hopen : opening ≠ []) (he : IsRef first more e) :
    replaceLoop opening first more value 0 (opening ++ (e ++ 0x3B :: t)) =
      value e ++ replaceLoop opening first more value 0 t := by
  obtain ⟨c, o, rfl⟩ := List.exists_cons_of_ne_nil hopen
  have href : refAt (c :: o) first more (c :: (o ++ (e ++ 0x3B :: t))) = some e :=
    refAt_ref hmore he
  have hlen : (c :: o).length + e.length = (o ++ (e ++ [0x3B])).length := by
    simp
    omega
  have hrest : o ++ (e ++ 0x3B :: t) = o ++ (e ++ [0x3B]) ++ t := by simp
  rw [List.cons_append, replaceLoop, href]
  simp only
  rw [hlen, hrest, replaceLoop_skip]

lemma replaceLoop_cons_of_none {c : UInt8} (h : refAt opening first more (c :: s) = none) :
    replaceLoop opening first more value 0 (c :: s) =
      c :: replaceLoop opening first more value 0 s := by
  rw [replaceLoop, h]

/-- No part of the text is a reference. -/
def NoRef (opening : Str) (first more : UInt8 → Bool) (s : Str) : Prop :=
  ∀ t, t <:+ s → refAt opening first more t = none

instance : Decidable (NoRef opening first more s) :=
  decidable_of_iff (∀ t ∈ s.tails, refAt opening first more t = none) (by simp [NoRef])

lemma noRef_cons_iff {c : UInt8} : NoRef opening first more (c :: s) ↔
    refAt opening first more (c :: s) = none ∧ NoRef opening first more s := by
  constructor
  · intro h
    exact ⟨h _ (List.suffix_refl _), fun t ht => h t (ht.trans (List.suffix_cons c s))⟩
  · rintro ⟨hc, hs⟩ t ht
    rcases List.suffix_cons_iff.1 ht with rfl | ht
    · exact hc
    · exact hs t ht

lemma replaceLoop_of_noRef (h : NoRef opening first more s) :
    replaceLoop opening first more value 0 s = s := by
  induction s with
  | nil => rfl
  | cons c s ih =>
      rw [noRef_cons_iff] at h
      rw [replaceLoop_cons_of_none h.1, ih h.2]

/-- What is put in the place of a reference is shorter than the reference with its delimiters. -/
def Shortens (opening : Str) (first more : UInt8 → Bool) (value : Str → Str) : Prop :=
  ∀ e, IsRef first more e → (value e).length ≤ opening.length + e.length

/-- A pass makes no text longer, and a text with a reference shorter. -/
lemma length_replaceLoop (hmore : more 0x3B = false) (hopen : opening ≠ [])
    (hv : Shortens opening first more value) (s : Str) :
    (replaceLoop opening first more value 0 s).length ≤ s.length ∧
      (¬NoRef opening first more s →
        (replaceLoop opening first more value 0 s).length < s.length) := by
  induction hn : s.length using Nat.strong_induction_on generalizing s with
  | h n ih =>
      subst hn
      cases s with
      | nil =>
          refine ⟨le_refl _, fun h => absurd (fun t ht => ?_) h⟩
          obtain ⟨d, o, rfl⟩ := List.exists_cons_of_ne_nil hopen
          rw [List.suffix_nil.1 ht]
          exact refAt_of_head?_ne (by simp)
      | cons c s =>
          cases href : refAt opening first more (c :: s) with
          | none =>
              obtain ⟨hle, hlt⟩ := ih s.length (by simp) s rfl
              rw [replaceLoop_cons_of_none href, noRef_cons_iff]
              simp only [href, true_and, List.length_cons]
              exact ⟨by omega, fun h => by have := hlt h; omega⟩
          | some e =>
              obtain ⟨⟨t, ht⟩, he⟩ := (refAt_eq_some_iff hmore).1 href
              have hlen : (c :: s).length = opening.length + e.length + 1 + t.length := by
                rw [ht]
                simp
                omega
              have hvalue := hv e he
              have hrest := (ih t.length (by omega) t rfl).1
              rw [ht, replaceLoop_ref hmore hopen he, List.length_append, ← ht]
              omega

lemma replaceLoop_eq_self_iff (hmore : more 0x3B = false) (hopen : opening ≠ [])
    (hv : Shortens opening first more value) :
    replaceLoop opening first more value 0 s = s ↔ NoRef opening first more s := by
  refine ⟨fun h => ?_, replaceLoop_of_noRef⟩
  by_contra href
  have hlt := (length_replaceLoop hmore hopen hv s).2 href
  rw [h] at hlt
  omega

/-- The text has no reference if and only if none can be cut out of it. -/
lemma noRef_iff (hmore : more 0x3B = false) : NoRef opening first more s ↔
    ∀ e, IsRef first more e → ¬ opening ++ (e ++ [0x3B]) <:+: s := by
  constructor
  · rintro h e he ⟨x, y, rfl⟩
    have hsuffix : opening ++ (e ++ 0x3B :: y) <:+ x ++ (opening ++ (e ++ [0x3B])) ++ y :=
      ⟨x, by simp⟩
    have href := h _ hsuffix
    rw [refAt_ref hmore he] at href
    cases href
  · rintro h t ⟨x, rfl⟩
    cases href : refAt opening first more t with
    | none => rfl
    | some e =>
        obtain ⟨⟨y, rfl⟩, he⟩ := (refAt_eq_some_iff hmore).1 href
        exact absurd ⟨x, y, by simp⟩ (h e he)

/-- A text without the first byte of `opening` stays as it is. -/
lemma replaceLoop_of_notMem {d : UInt8} (h : d ∉ s) :
    replaceLoop (d :: opening) first more value 0 s = s := by
  refine replaceLoop_of_noRef fun t ht => refAt_of_head?_ne fun hhead => h (ht.subset ?_)
  exact List.mem_of_head? hhead

end

namespace EntityHandler

/-- The first byte of a name, `[[:alpha:]_:]`. -/
def isNameStart (c : UInt8) : Bool := isAlpha c || c == 0x5F || c == 0x3A

/-- The further bytes of a name, `[\w._:-]`. -/
def isNameChar (c : UInt8) : Bool :=
  isAlnum c || c == 0x5F || c == 0x2E || c == 0x3A || c == 0x2D

def replaceCharEntities (h : EntityHandler) (s : Str) : Str :=
  replaceLoop (lit "&") isNameStart isNameChar h.charEntity 0 s

def replaceDecNumcharRef (h : EntityHandler) (s : Str) : Str :=
  replaceLoop (lit "&#") isDigit isDigit h.decNumcharRef 0 s

def replaceHexNumcharRef (h : EntityHandler) (s : Str) : Str :=
  replaceLoop (lit "&#x") isXDigit isXDigit h.hexNumcharRef 0 s

def replaceAllEntities (h : EntityHandler) (s : Str) : Str :=
  h.replaceHexNumcharRef (h.replaceDecNumcharRef (h.replaceCharEntities s))

lemma replaceAllEntities_of_notMem (h : EntityHandler) {s : Str} (hs : 0x26 ∉ s) :
    h.replaceAllEntities s = s := by
  have hchar : h.replaceCharEntities s = s := replaceLoop_of_notMem hs
  have hdec : h.replaceDecNumcharRef s = s := replaceLoop_of_notMem hs
  rw [replaceAllEntities, hchar, hdec]
  exact replaceLoop_of_notMem hs

end EntityHandler

end Mycelium
