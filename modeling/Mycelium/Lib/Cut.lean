import Mathlib.Data.List.DropRight

/-!
# Cutting lists

`takeWhile` and `dropWhile` cut a list in two.  For a list that is put together from two parts the
lemmas say when the cut is at the seam: in general, and for the cut at the first occurrence of a
delimiter.
-/

namespace Lib

section Stop

variable {α : Type*} {p : α → Bool} {x y : List α}

lemma takeWhile_append_of_stop (hx : ∀ c ∈ x, p c = true) (hy : ∀ c ∈ y.head?, p c = false) :
    (x ++ y).takeWhile p = x := by
  rw [List.takeWhile_append_of_pos hx]
  cases y with
  | nil => simp
  | cons d y => simp [hy d (by simp)]

lemma dropWhile_append_of_stop (hx : ∀ c ∈ x, p c = true) (hy : ∀ c ∈ y.head?, p c = false) :
    (x ++ y).dropWhile p = y := by
  rw [List.dropWhile_append_of_pos hx]
  cases y with
  | nil => simp
  | cons d y => simp [hy d (by simp)]

lemma head?_dropWhile {d : α} (h : d ∈ (x.dropWhile p).head?) : p d = false := by
  have := List.head?_dropWhile_not p x
  rw [Option.mem_def] at h
  rw [h] at this
  simpa using this

/-- Nothing is taken from behind a letter that stops the cut. -/
lemma takeWhile_append_cons_of_neg {d : α} (hd : p d = false) :
    (x ++ d :: y).takeWhile p = x.takeWhile p := by
  induction x with
  | nil => simp [hd]
  | cons a x ih =>
      rw [List.cons_append, List.takeWhile_cons, List.takeWhile_cons, ih]

/-- A part that stays by itself stays in front of another one. -/
lemma rdropWhile_append_of_self (hx : x.rdropWhile p = x) (y : List α) :
    (x ++ y).rdropWhile p = x ++ y.rdropWhile p := by
  induction y using List.reverseRecOn with
  | nil => simpa using hx
  | append_singleton y c ih =>
      rw [← List.append_assoc, List.rdropWhile_concat, List.rdropWhile_concat]
      split
      · exact ih
      · exact List.append_assoc ..

/-- What stays in front depends only on what stays behind. -/
lemma rdropWhile_append_congr {y y' : List α} (h : y.rdropWhile p = y'.rdropWhile p) :
    (x ++ y).rdropWhile p = (x ++ y').rdropWhile p := by
  simp only [List.rdropWhile, List.reverse_inj] at h ⊢
  rw [List.reverse_append, List.reverse_append, List.dropWhile_append, List.dropWhile_append, h]

/-- A cut of a list that ends with `a`: at the end, or before it. -/
lemma append_singleton_eq_append_cons {a d : α} {s z : List α} (h : s ++ [a] = x ++ d :: z) :
    z = [] ∧ x = s ∧ d = a ∨ ∃ z', z = z' ++ [a] ∧ s = x ++ d :: z' := by
  rcases List.eq_nil_or_concat z with rfl | ⟨z, e, rfl⟩
  · obtain ⟨hx, hd⟩ := List.append_inj' h rfl
    exact Or.inl ⟨rfl, hx.symm, (List.singleton_inj.1 hd).symm⟩
  · rw [List.concat_eq_append, ← List.cons_append, ← List.append_assoc] at h
    obtain ⟨hs, ha⟩ := List.append_inj' h rfl
    exact Or.inr ⟨z, by rw [List.concat_eq_append, List.singleton_inj.1 ha], hs⟩

/-- A piece at the start that does not have the delimiter ends before it. -/
lemma length_le_of_isPrefix {d : α} {s z : List α} (h : s <+: x ++ d :: z) (hs : d ∉ s) :
    s.length ≤ x.length := by
  by_contra hlt
  have hx : x ++ [d] <+: x ++ d :: z := ⟨z, by simp⟩
  have hpre : x ++ [d] <+: s := by
    refine List.prefix_of_prefix_length_le hx h ?_
    rw [List.length_append, List.length_singleton]
    omega
  exact hs (hpre.subset (by simp))

/-- A piece at the start ends before a letter or has it. -/
lemma prefix_append_cons_cases {d : α} {s z : List α} (h : s <+: x ++ d :: z) :
    s <+: x ∨ ∃ t, t <+: z ∧ s = x ++ d :: t := by
  rcases List.prefix_or_prefix_of_prefix h (List.prefix_append x (d :: z)) with hx | ⟨t, rfl⟩
  · exact Or.inl hx
  · rw [List.prefix_append_right_inj, List.prefix_cons_iff] at h
    rcases h with rfl | ⟨t, rfl, ht⟩
    · exact Or.inl (by simp)
    · exact Or.inr ⟨t, ht, rfl⟩

/-- A letter that is not in the first part is in the second. -/
lemma exists_of_append_cons_eq_append {d : α} {s t z : List α} (h : x ++ d :: z = s ++ t)
    (hs : d ∉ s) : ∃ x', x = s ++ x' ∧ t = x' ++ d :: z := by
  rcases List.append_eq_append_iff.1 h with ⟨r, rfl, hr⟩ | ⟨r, rfl, rfl⟩
  · cases r with
    | nil => exact ⟨[], by simp, hr.symm⟩
    | cons b r =>
        obtain ⟨rfl, -⟩ := List.cons.inj hr
        exact absurd (by simp) hs
  · exact ⟨r, rfl, rfl⟩

/-- A letter that is neither in the first part nor in the last is in the middle one. -/
lemma exists_of_append_cons_eq_append_append {d : α} {s t r z : List α}
    (h : x ++ d :: z = s ++ (t ++ r)) (hs : d ∉ s) (hr : d ∉ r) :
    ∃ t₁ t₂, t = t₁ ++ d :: t₂ ∧ x = s ++ t₁ ∧ z = t₂ ++ r := by
  obtain ⟨x', rfl, hrest⟩ := exists_of_append_cons_eq_append h hs
  rcases List.append_eq_append_iff.1 hrest with ⟨q, rfl, rfl⟩ | ⟨q, rfl, hq⟩
  · exact absurd (by simp) hr
  · cases q with
    | nil =>
        rw [List.nil_append] at hq
        exact absurd (by simp [← hq]) hr
    | cons b q =>
        obtain ⟨rfl, rfl⟩ := List.cons.inj hq
        exact ⟨x', q, rfl, rfl, rfl⟩

end Stop

section Delimiter

variable {α : Type*} [BEq α] [LawfulBEq α] {d e : α} {s x z : List α}

/-- A search finds `d` if it is there and nothing before it is accepted. -/
lemma find?_eq_of_takeWhile {p : α → Bool} (hd : d ∈ s) (hp : p d = true)
    (h : ∀ c ∈ s.takeWhile (· != d), p c = false) : s.find? p = some d := by
  induction s with
  | nil => exact absurd hd List.not_mem_nil
  | cons c s ih =>
      by_cases hc : c = d
      · rw [hc, List.find?_cons_of_pos hp]
      · rw [List.takeWhile_cons_of_pos (by simpa using hc), List.forall_mem_cons] at h
        rw [List.find?_cons_of_neg (by simp [h.1])]
        exact ih ((List.mem_cons.1 hd).resolve_left (Ne.symm hc)) h.2

lemma bne_of_notMem (hx : d ∉ x) : ∀ c ∈ x, (c != d) = true := by
  intro c hc
  rw [bne_iff_ne]
  rintro rfl
  exact hx hc

lemma forall_bne_iff : (∀ c ∈ x, (c != d) = true) ↔ d ∉ x :=
  ⟨fun h hd => by simpa using h d hd, bne_of_notMem⟩

/-- The text before a delimiter that is not in it. -/
lemma takeWhile_bne_append (hx : d ∉ x) : (x ++ d :: z).takeWhile (· != d) = x :=
  takeWhile_append_of_stop (bne_of_notMem hx) (by simp)

lemma dropWhile_bne_append (hx : d ∉ x) : (x ++ d :: z).dropWhile (· != d) = d :: z :=
  dropWhile_append_of_stop (bne_of_notMem hx) (by simp)

/-- A list is cut at its first delimiter in one way only. -/
lemma append_cons_inj {x' z' : List α} (hx : d ∉ x) (hx' : d ∉ x')
    (h : x ++ d :: z = x' ++ d :: z') : x = x' ∧ z = z' := by
  have htake := congrArg (List.takeWhile (· != d)) h
  rw [takeWhile_bne_append hx, takeWhile_bne_append hx'] at htake
  subst htake
  exact ⟨rfl, by simpa using h⟩

lemma notMem_takeWhile_bne : d ∉ s.takeWhile (· != d) := by
  intro h
  simpa using List.mem_takeWhile_imp h

lemma dropWhile_bne_eq_nil_iff : s.dropWhile (· != d) = [] ↔ d ∉ s := by
  rw [List.dropWhile_eq_nil_iff]
  exact forall_bne_iff

/-- A text with the delimiter is cut at its first occurrence. -/
lemma eq_append_of_dropWhile_bne (h : s.dropWhile (· != d) = e :: z) :
    s = s.takeWhile (· != d) ++ d :: z := by
  have he : e = d := by simpa using head?_dropWhile (p := (· != d)) (x := s) (by rw [h]; rfl)
  rw [he] at h
  rw [← h, List.takeWhile_append_dropWhile]

end Delimiter

end Lib
