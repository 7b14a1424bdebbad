import Mathlib.Data.List.Sort
import Mathlib.Order.Defs.LinearOrder

/-!
# Ordered indices

An index that keeps its elements in the order of their keys, with room for several elements of one
key: a new element goes behind those with its key, and an element that is replaced keeps its place
if the order allows it and is inserted anew otherwise.
-/

namespace Lib

/-- An ordered, non-unique index on `α` by `key`. -/
structure OrderedIndex {α κ : Type} [LinearOrder κ] (key : α → κ) where
  toList : List α
  sorted : toList.Pairwise fun a b => key a ≤ key b

namespace OrderedIndex

variable {α κ : Type} [LinearOrder κ] {key : α → κ}

/-! ### One more element in a list -/

/-- The list `l'` is `l` with `b` put in somewhere. -/
def Inserted (b : α) (l l' : List α) : Prop := ∃ xs ys, l = xs ++ ys ∧ l' = xs ++ b :: ys

namespace Inserted

variable {b e : α} {l l' : List α} {p : α → Bool}

lemma perm (h : Inserted b l l') : l'.Perm (b :: l) := by
  obtain ⟨xs, ys, rfl, rfl⟩ := h
  exact List.perm_middle

lemma find?_of_not (h : Inserted b l l') (hb : p b = false) : l'.find? p = l.find? p := by
  obtain ⟨xs, ys, rfl, rfl⟩ := h
  rw [List.find?_append, List.find?_append, List.find?_cons_of_neg (by simp [hb])]

lemma find?_self (h : Inserted b l l') (hl : ∀ a ∈ l, p a = false) (hb : p b = true) :
    l'.find? p = some b := by
  obtain ⟨xs, ys, rfl, rfl⟩ := h
  have hxs : xs.find? p = none :=
    List.find?_eq_none.2 fun a ha => by simp [hl a (List.mem_append_left ys ha)]
  rw [List.find?_append, hxs, Option.none_or, List.find?_cons_of_pos hb]

end Inserted

lemma inserted_orderedInsert (r : α → α → Prop) [DecidableRel r] (b : α) (l : List α) :
    Inserted b l (l.orderedInsert r b) :=
  ⟨_, _, (List.takeWhile_append_dropWhile (p := fun a => ¬ r b a) (l := l)).symm,
    List.orderedInsert_eq_take_drop r b l⟩

/-- Removing another element does not change which one is found. -/
lemma find?_eraseP {p q : α → Bool} {e : α} {l : List α} (h : l.find? q = some e)
    (he : p e = false) : (l.eraseP p).find? q = some e := by
  induction l with
  | nil => exact absurd h (by simp)
  | cons a l ih =>
      by_cases hq : q a = true
      · rw [List.find?_cons_of_pos hq, Option.some.injEq] at h
        rw [List.eraseP_cons_of_neg (by simp [h, he]), List.find?_cons_of_pos hq, h]
      · rw [List.find?_cons_of_neg hq] at h
        by_cases hp : p a = true
        · rw [List.eraseP_cons_of_pos hp, h]
        · rw [List.eraseP_cons_of_neg hp, List.find?_cons_of_neg hq, ih h]

lemma takeWhile_append_tail_dropWhile (p : α → Bool) (l : List α) :
    l.takeWhile (!p ·) ++ (l.dropWhile (!p ·)).tail = l.eraseP p := by
  induction l with
  | nil => rfl
  | cons a l ih =>
      by_cases hp : p a = true
      · simp [hp]
      · simpa [hp] using ih

/-! ### The order -/

lemma pairwise_orderedInsert {l : List α} (h : l.Pairwise fun a b => key a ≤ key b) (b : α) :
    (l.orderedInsert (fun a c => key a < key c) b).Pairwise fun a c => key a ≤ key c := by
  induction l with
  | nil => simp
  | cons a l ih =>
      obtain ⟨ha, hl⟩ := List.pairwise_cons.1 h
      rw [List.orderedInsert_cons]
      split
      · next hlt =>
          refine List.pairwise_cons.2 ⟨?_, h⟩
          intro c hc
          rcases List.mem_cons.1 hc with rfl | hc
          · exact hlt.le
          · exact hlt.le.trans (ha c hc)
      · next hnlt =>
          refine List.pairwise_cons.2 ⟨?_, ih hl⟩
          intro c hc
          rcases (List.mem_orderedInsert _).1 hc with rfl | hc
          · exact not_lt.1 hnlt
          · exact ha c hc

/-- Between `xs` and `ys` there is room for `b`: it is not below the one before and not above the
one behind. -/
def fits (key : α → κ) (xs : List α) (b : α) (ys : List α) : Bool :=
  xs.getLast?.all (fun x => key x ≤ key b) && ys.head?.all (fun y => key b ≤ key y)

lemma pairwise_of_fits {xs ys : List α} {b : α} (hfit : fits key xs b ys = true)
    (h : (xs ++ ys).Pairwise fun a c => key a ≤ key c) :
    (xs ++ b :: ys).Pairwise fun a c => key a ≤ key c := by
  obtain ⟨hxs, hys, hcross⟩ := List.pairwise_append.1 h
  obtain ⟨hlast, hhead⟩ := Bool.and_eq_true_iff.1 hfit
  -- the neighbours bound all the others
  have hbefore : ∀ a ∈ xs, key a ≤ key b := by
    rcases List.eq_nil_or_concat xs with rfl | ⟨init, x, rfl⟩
    · simp
    · rw [List.concat_eq_append] at hxs hlast ⊢
      have hx : key x ≤ key b := by simpa using hlast
      intro a ha
      rcases List.mem_append.1 ha with ha | ha
      · exact ((List.pairwise_append.1 hxs).2.2 a ha x (by simp)).trans hx
      · rwa [List.mem_singleton.1 ha]
  have hbehind : ∀ c ∈ ys, key b ≤ key c := by
    cases ys with
    | nil => simp
    | cons y ys =>
        have hy : key b ≤ key y := by simpa using hhead
        intro c hc
        rcases List.mem_cons.1 hc with rfl | hc
        · exact hy
        · exact hy.trans ((List.pairwise_cons.1 hys).1 c hc)
  refine List.pairwise_append.2 ⟨hxs, List.pairwise_cons.2 ⟨hbehind, hys⟩, ?_⟩
  intro a ha c hc
  rcases List.mem_cons.1 hc with rfl | hc
  · exact hbefore a ha
  · exact hcross a ha c hc

/-! ### The operations -/

def empty : OrderedIndex key := ⟨[], List.Pairwise.nil⟩

/-- The first element with a key. -/
def find (x : OrderedIndex key) (k : κ) : Option α := x.toList.find? fun a => key a = k

/-- Inserts an element behind those with its key. -/
def insert (x : OrderedIndex key) (b : α) : OrderedIndex key where
  toList := x.toList.orderedInsert (fun a c => key a < key c) b
  sorted := pairwise_orderedInsert x.sorted b

/-- Replaces the first element with `p`: where it stood if the new one fits there. -/
def replace (x : OrderedIndex key) (p : α → Bool) (b : α) : OrderedIndex key where
  toList :=
    let xs := x.toList.takeWhile (!p ·)
    let ys := (x.toList.dropWhile (!p ·)).tail
    if fits key xs b ys then xs ++ b :: ys
    else (x.toList.eraseP p).orderedInsert (fun a c => key a < key c) b
  sorted := by
    have herase : (x.toList.eraseP p).Pairwise fun a c => key a ≤ key c :=
      x.sorted.sublist List.eraseP_sublist
    dsimp only
    split
    · next hfit =>
        rw [← takeWhile_append_tail_dropWhile] at herase
        exact pairwise_of_fits hfit herase
    · exact pairwise_orderedInsert herase b

variable {x : OrderedIndex key} {p : α → Bool} {b e : α} {k : κ}

lemma inserted_insert : Inserted b x.toList (x.insert b).toList :=
  inserted_orderedInsert _ b x.toList

lemma inserted_replace : Inserted b (x.toList.eraseP p) (x.replace p b).toList := by
  simp only [replace]
  split
  · exact ⟨_, _, (takeWhile_append_tail_dropWhile p x.toList).symm, rfl⟩
  · exact inserted_orderedInsert _ b _

lemma find_eq_none_iff : x.find k = none ↔ ∀ a ∈ x.toList, key a ≠ k := by
  simp [find]

lemma mem_of_find (h : x.find k = some e) : e ∈ x.toList := List.mem_of_find?_eq_some h

lemma key_of_find (h : x.find k = some e) : key e = k := by
  simpa using List.find?_some h

lemma find_insert_of_ne (hk : key b ≠ k) : (x.insert b).find k = x.find k :=
  inserted_insert.find?_of_not (by simpa using hk)

lemma find_insert_self (h : x.find (key b) = none) : (x.insert b).find (key b) = some b :=
  inserted_insert.find?_self (by simpa [find] using h) (by simp)

/-- After a replacement every other element that was found is found. -/
lemma find_replace_of_ne (hk : key b ≠ k) (h : x.find k = some e) (he : p e = false) :
    (x.replace p b).find k = some e := by
  have hfind := (inserted_replace (x := x) (p := p) (b := b)).find?_of_not
    (p := fun a => key a = k) (by simpa using hk)
  exact hfind.trans (find?_eraseP h he)

lemma find_replace_self (h : x.find (key b) = none) : (x.replace p b).find (key b) = some b := by
  refine inserted_replace.find?_self ?_ (by simp)
  intro a ha
  simpa using find_eq_none_iff.1 h a (List.mem_of_mem_eraseP ha)

end OrderedIndex

end Lib
