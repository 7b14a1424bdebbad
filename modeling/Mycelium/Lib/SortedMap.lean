import Mathlib

/-!
# Maps as sorted lists

A map as the list of its entries in ascending order of their keys, which are compared by `key`.
Iteration over the map is iteration over the list.
-/

namespace Lib

namespace SortedMap

variable {α ν κ : Type} [LinearOrder κ]

/-- The keys ascend. -/
def Sorted (key : α → κ) (m : List (α × ν)) : Prop := m.Pairwise fun a b => key a.1 < key b.1

/-- The value of a key. -/
def find (key : α → κ) (k : α) (m : List (α × ν)) : Option ν :=
  (m.find? fun e => key e.1 = key k).map Prod.snd

/-- Gives a key a value, at the place of the key. -/
def set (key : α → κ) (k : α) (v : ν) : List (α × ν) → List (α × ν)
  | [] => [(k, v)]
  | e :: m =>
      if key k < key e.1 then (k, v) :: e :: m
      else if key k = key e.1 then (k, v) :: m
      else e :: set key k v m

/-- Takes a key away. -/
def erase (key : α → κ) (k : α) (m : List (α × ν)) : List (α × ν) :=
  m.filter fun e => key e.1 ≠ key k

variable {key : α → κ} {k k' : α} {v : ν} {m m' : List (α × ν)} {e : α × ν}

lemma mem_set (h : e ∈ set key k v m) : e = (k, v) ∨ e ∈ m := by
  induction m with
  | nil => exact Or.inl (List.mem_singleton.1 h)
  | cons a m ih =>
      rw [set] at h
      split at h
      · exact List.mem_cons.1 h
      · split at h
        · exact (List.mem_cons.1 h).imp_right (List.mem_cons_of_mem a)
        · rcases List.mem_cons.1 h with rfl | h
          · exact Or.inr List.mem_cons_self
          · exact (ih h).imp_right (List.mem_cons_of_mem a)

lemma Sorted.set (h : Sorted key m) : Sorted key (set key k v m) := by
  induction m with
  | nil => exact List.pairwise_singleton _ _
  | cons a m ih =>
      obtain ⟨ha, hm⟩ := List.pairwise_cons.1 h
      rw [SortedMap.set]
      split
      · next hlt =>
          refine List.pairwise_cons.2 ⟨fun b hb => ?_, h⟩
          rcases List.mem_cons.1 hb with rfl | hb
          · exact hlt
          · exact hlt.trans (ha b hb)
      · next hle =>
          split
          · next heq => exact List.pairwise_cons.2 ⟨fun b hb => heq ▸ ha b hb, hm⟩
          · next hne =>
              refine List.pairwise_cons.2 ⟨fun b hb => ?_, ih hm⟩
              rcases mem_set hb with rfl | hb
              · exact lt_of_le_of_ne (not_lt.1 hle) (Ne.symm hne)
              · exact ha b hb

lemma Sorted.erase (h : Sorted key m) : Sorted key (erase key k m) := h.filter _

lemma find_cons : find key k (e :: m) = if key e.1 = key k then some e.2 else find key k m := by
  rw [find, List.find?_cons]
  split
  · next h => rw [if_pos (of_decide_eq_true h)]; rfl
  · next h => rw [if_neg (of_decide_eq_false h)]; rfl

lemma find_set :
    find key k' (set key k v m) = if key k' = key k then some v else find key k' m := by
  induction m with
  | nil =>
      rw [set, find_cons]
      simp only [eq_comm]
  | cons a m ih =>
      rw [set]
      split
      · rw [find_cons]
        simp only [eq_comm]
      · split
        · next heq =>
            rw [find_cons, find_cons, ← heq]
            simp only [eq_comm]
            split <;> rfl
        · next hne =>
            rw [find_cons, find_cons, ih]
            by_cases hk : key k' = key k
            · have hak : key a.1 ≠ key k' := fun hak => hne (hk ▸ hak.symm)
              simp [hk, hk ▸ hak]
            · simp [hk]

lemma find_erase :
    find key k' (erase key k m) = if key k' = key k then none else find key k' m := by
  induction m with
  | nil => simp [erase, find]
  | cons a m ih =>
      rw [erase, List.filter_cons]
      split
      · next hne =>
          have hne : key a.1 ≠ key k := by simpa using hne
          have herase : m.filter (fun e => key e.1 ≠ key k) = erase key k m := rfl
          rw [find_cons, find_cons, herase, ih]
          by_cases hk : key k' = key k
          · simp [hk, hne]
          · simp [hk]
      · next heq =>
          have heq : key a.1 = key k := by simpa using heq
          have herase : m.filter (fun e => key e.1 ≠ key k) = erase key k m := rfl
          rw [herase, ih, find_cons, heq]
          by_cases hk : key k' = key k
          · simp [hk]
          · simp [hk, Ne.symm hk]

/-- A key above all others goes to the end. -/
lemma set_of_lt (h : ∀ e ∈ m, key e.1 < key k) : set key k v m = m ++ [(k, v)] := by
  induction m with
  | nil => rfl
  | cons a m ih =>
      obtain ⟨ha, hm⟩ := List.forall_mem_cons.1 h
      rw [set, if_neg (not_lt.2 ha.le), if_neg ha.ne', ih hm]
      rfl

/-- Setting the entries of a sorted list in turn gives the list. -/
lemma foldl_set (h : Sorted key (m ++ m')) :
    m'.foldl (fun m e => set key e.1 e.2 m) m = m ++ m' := by
  induction m' generalizing m with
  | nil => exact (List.append_nil m).symm
  | cons a m' ih =>
      have hlt : ∀ e ∈ m, key e.1 < key a.1 :=
        fun e he => (List.pairwise_append.1 h).2.2 e he a List.mem_cons_self
      rw [List.foldl_cons, set_of_lt hlt, ih, List.append_assoc]
      · rfl
      · rw [List.append_assoc]
        exact h

end SortedMap

end Lib
