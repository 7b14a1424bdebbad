import Mathlib.Data.List.Nodup
import Mathlib.Data.List.Perm.Basic

/-!
# Finite maps in order of insertion

A map that remembers the order in which its keys came in.  A new value of a key stays at the place
of the key, and `fiber` is the part of the map over one value of a function of the keys, such as a
hash.
-/

namespace Lib

/-- A finite map as the list of its entries, oldest first. -/
@[ext]
structure OrderedMap (κ ν : Type) where
  /-- The entries, oldest first. -/
  entries : List (κ × ν)
  /-- A key has one entry. -/
  nodup : (entries.map Prod.fst).Nodup

namespace OrderedMap

variable {κ ν α : Type} [DecidableEq α] {m : OrderedMap κ ν} {k k' : κ} {v : ν} {f : κ → α} {a : α}

/-- The map without entries. -/
def empty : OrderedMap κ ν := ⟨[], List.nodup_nil⟩

/-- The entries of the keys over `a`, oldest first. -/
def fiber (m : OrderedMap κ ν) (f : κ → α) (a : α) : List (κ × ν) :=
  m.entries.filter fun e => f e.1 = a

lemma mem_fiber {e : κ × ν} : e ∈ m.fiber f a ↔ e ∈ m.entries ∧ f e.1 = a := by
  simp [fiber]

lemma nodup_fiber : ((m.fiber f a).map Prod.fst).Nodup :=
  m.nodup.sublist (List.filter_sublist.map Prod.fst)

/-- A key stands at one place of one fiber. -/
lemma place_unique {a' : α} {i j : ℕ} {e e' : κ × ν} (hi : (m.fiber f a)[i]? = some e)
    (hj : (m.fiber f a')[j]? = some e') (hk : e.1 = e'.1) : (a, i) = (a', j) := by
  have ha : f e.1 = a := (mem_fiber.1 (List.mem_of_getElem? hi)).2
  have ha' : f e'.1 = a' := (mem_fiber.1 (List.mem_of_getElem? hj)).2
  obtain rfl : a = a' := by rw [← ha, ← ha', hk]
  have hlt : i < ((m.fiber f a).map Prod.fst).length := by
    simpa using (List.getElem?_eq_some_iff.1 hi).1
  have hij : i = j := by
    refine (List.getElem?_inj hlt nodup_fiber).1 ?_
    rw [List.getElem?_map, List.getElem?_map, hi, hj, Option.map_some, Option.map_some, hk]
  rw [hij]

variable [DecidableEq κ]

/-- The value of a key. -/
def get? (m : OrderedMap κ ν) (k : κ) : Option ν := (m.entries.find? (·.1 = k)).map Prod.snd

lemma get?_eq_some_iff : m.get? k = some v ↔ (k, v) ∈ m.entries := by
  obtain ⟨es, hes⟩ := m
  simp only [get?]
  induction es with
  | nil => simp
  | cons e es ih =>
      obtain ⟨k₁, v₁⟩ := e
      simp only [List.map_cons, List.nodup_cons] at hes
      by_cases hk : k₁ = k
      · subst hk
        have hout : (k₁, v) ∉ es := fun hin => hes.1 (List.mem_map_of_mem hin)
        simp [hout, eq_comm]
      · have hne : (k, v) ≠ (k₁, v₁) := fun h => hk (Prod.mk.inj h).1.symm
        rw [List.find?_cons_of_neg (by simpa using hk), ih hes.2]
        simp [hne]

lemma get?_eq_none_iff : m.get? k = none ↔ k ∉ m.entries.map Prod.fst := by
  rw [get?, Option.map_eq_none_iff, List.find?_eq_none, List.mem_map]
  constructor
  · rintro h ⟨e, he, hk⟩
    exact h e he (by simpa using hk)
  · intro h e he hk
    exact h ⟨e, he, by simpa using hk⟩

/-- Two maps agree on the values when they have the same entries, in any order. -/
lemma get?_eq_of_mem_iff {m₁ m₂ : OrderedMap κ ν}
    (h : ∀ v, (k, v) ∈ m₁.entries ↔ (k', v) ∈ m₂.entries) : m₁.get? k = m₂.get? k' := by
  refine Option.ext fun v => ?_
  rw [get?_eq_some_iff, get?_eq_some_iff, h v]

/-- Adds a key that the map does not have yet. -/
def touch (m : OrderedMap κ ν) (k : κ) (v : ν) : OrderedMap κ ν :=
  if h : k ∈ m.entries.map Prod.fst then m
  else ⟨m.entries ++ [(k, v)], by
    rw [List.map_append]
    exact m.nodup.append (List.nodup_singleton k) (by simpa [List.disjoint_singleton] using h)⟩

/-- Gives a key of the map a new value. -/
def set (m : OrderedMap κ ν) (k : κ) (v : ν) : OrderedMap κ ν where
  entries := m.entries.map fun e => if e.1 = k then (k, v) else e
  nodup := by
    have hkeys : (m.entries.map fun e => if e.1 = k then (k, v) else e).map Prod.fst =
        m.entries.map Prod.fst := by
      rw [List.map_map]
      refine List.map_congr_left fun e _ => ?_
      by_cases he : e.1 = k <;> simp [he]
    exact hkeys ▸ m.nodup

/-- Takes a key out of the map. -/
def erase (m : OrderedMap κ ν) (k : κ) : OrderedMap κ ν where
  entries := m.entries.filter (·.1 ≠ k)
  nodup := m.nodup.sublist (List.filter_sublist.map Prod.fst)

lemma touch_of_mem (h : k ∈ m.entries.map Prod.fst) : m.touch k v = m := by
  rw [touch, dif_pos h]

lemma entries_touch_of_notMem (h : k ∉ m.entries.map Prod.fst) :
    (m.touch k v).entries = m.entries ++ [(k, v)] := by
  rw [touch, dif_neg h]

lemma get?_touch_self : (m.touch k v).get? k = some ((m.get? k).getD v) := by
  by_cases h : k ∈ m.entries.map Prod.fst
  · rw [touch_of_mem h]
    cases hv : m.get? k with
    | none => exact absurd h (get?_eq_none_iff.1 hv)
    | some u => rfl
  · rw [get?_eq_none_iff.2 h, get?_eq_some_iff, entries_touch_of_notMem h]
    simp

lemma get?_touch_of_ne (h : k' ≠ k) : (m.touch k v).get? k' = m.get? k' := by
  by_cases hk : k ∈ m.entries.map Prod.fst
  · rw [touch_of_mem hk]
  · refine get?_eq_of_mem_iff fun u => ?_
    simp [entries_touch_of_notMem hk, h]

lemma get?_set_of_ne (h : k' ≠ k) : (m.set k v).get? k' = m.get? k' := by
  refine get?_eq_of_mem_iff fun u => ?_
  simp only [set, List.mem_map, Prod.exists]
  constructor
  · rintro ⟨k₁, v₁, hin, heq⟩
    by_cases hk : k₁ = k
    · simp only [hk, if_true, Prod.mk.injEq] at heq
      exact absurd heq.1.symm h
    · rw [if_neg hk] at heq
      exact heq ▸ hin
  · intro hin
    exact ⟨k', u, hin, by simp [h]⟩

lemma get?_erase_self : (m.erase k).get? k = none :=
  get?_eq_none_iff.2 (by simp [erase])

lemma get?_erase_of_ne (h : k' ≠ k) : (m.erase k).get? k' = m.get? k' :=
  get?_eq_of_mem_iff fun u => by simp [erase, h]

/-! ### Fibers -/

/-- The place of a key in its fiber; a key that the map does not have yet comes last. -/
def place (m : OrderedMap κ ν) (f : κ → α) (k : κ) : ℕ := (m.fiber f (f k)).findIdx (·.1 = k)

lemma place_of_notMem (h : k ∉ m.entries.map Prod.fst) :
    m.place f k = (m.fiber f (f k)).length := by
  refine List.findIdx_eq_length.2 fun e he => ?_
  have hne : e.1 ≠ k := by
    rintro rfl
    exact h (List.mem_map_of_mem (mem_fiber.1 he).1)
  simpa using hne

lemma fiber_touch_of_notMem (h : k ∉ m.entries.map Prod.fst) :
    (m.touch k v).fiber f (f k) = m.fiber f (f k) ++ [(k, v)] := by
  simp [fiber, entries_touch_of_notMem h]

lemma getElem?_fiber_touch_place :
    ((m.touch k v).fiber f (f k))[m.place f k]? = some (k, (m.get? k).getD v) := by
  by_cases hk : k ∈ m.entries.map Prod.fst
  · rw [touch_of_mem hk]
    obtain ⟨⟨k, u⟩, hin, rfl⟩ := List.mem_map.1 hk
    have hlt : m.place f k < (m.fiber f (f k)).length :=
      List.findIdx_lt_length.2 ⟨(k, u), mem_fiber.2 ⟨hin, rfl⟩, by simp⟩
    obtain ⟨e, he⟩ : ∃ e, (m.fiber f (f k))[m.place f k]? = some e :=
      ⟨_, List.getElem?_eq_getElem hlt⟩
    have hkey : e.1 = k := by
      have hfound : decide ((m.fiber f (f k))[m.place f k].1 = k) = true :=
        List.findIdx_getElem (w := hlt)
      rw [(List.getElem?_eq_some_iff.1 he).2] at hfound
      simpa using hfound
    have hval : m.get? k = some e.2 :=
      get?_eq_some_iff.2 (hkey ▸ (mem_fiber.1 (List.mem_of_getElem? he)).1)
    rw [he, hval, Option.getD_some]
    exact congrArg some (Prod.ext hkey rfl)
  · rw [place_of_notMem hk, get?_eq_none_iff.2 hk]
    simp [fiber_touch_of_notMem hk]

lemma getElem?_fiber_touch_of_ne {i : ℕ} (h : (a, i) ≠ (f k, m.place f k)) :
    ((m.touch k v).fiber f a)[i]? = (m.fiber f a)[i]? := by
  by_cases hk : k ∈ m.entries.map Prod.fst
  · rw [touch_of_mem hk]
  · by_cases ha : f k = a
    · subst ha
      have hi : i ≠ (m.fiber f (f k)).length := by
        rintro rfl
        exact h (by rw [place_of_notMem hk])
      rw [fiber_touch_of_notMem hk, List.getElem?_append]
      split
      · rfl
      · rw [List.getElem?_eq_none (by simp; omega), List.getElem?_eq_none (by omega)]
    · simp [fiber, entries_touch_of_notMem hk, ha]

lemma fiber_set :
    (m.set k v).fiber f a = (m.fiber f a).map fun e => if e.1 = k then (k, v) else e := by
  simp only [fiber, set, List.filter_map]
  congr 1
  refine List.filter_congr fun e _ => ?_
  by_cases he : e.1 = k <;> simp [he]

lemma getElem?_fiber_set {i : ℕ} {u : ν} (hi : (m.fiber f a)[i]? = some (k, u)) :
    ((m.set k v).fiber f a)[i]? = some (k, v) := by
  simp [fiber_set, hi]

lemma getElem?_fiber_set_of_ne {a' : α} {i j : ℕ} {u : ν} (hi : (m.fiber f a)[i]? = some (k, u))
    (h : (a', j) ≠ (a, i)) : ((m.set k v).fiber f a')[j]? = (m.fiber f a')[j]? := by
  rw [fiber_set, List.getElem?_map]
  cases hj : (m.fiber f a')[j]? with
  | none => rfl
  | some e =>
      have he : e.1 ≠ k := fun he => h (place_unique hj hi he)
      simp [he]

lemma fiber_erase : (m.erase k).fiber f a = (m.fiber f a).filter (·.1 ≠ k) := by
  simp only [fiber, erase, List.filter_filter, Bool.and_comm]

/-- Without the last entry of a fiber, all others stay where they are. -/
lemma getElem?_fiber_erase {a' : α} {i j : ℕ} {u : ν} (hi : (m.fiber f a)[i]? = some (k, u))
    (hlast : (m.fiber f a).length ≤ i + 1) :
    ((m.erase k).fiber f a')[j]? = if (a', j) = (a, i) then none else (m.fiber f a')[j]? := by
  have hlt : i < (m.fiber f a).length := (List.getElem?_eq_some_iff.1 hi).1
  have hkeep : ∀ l : List (κ × ν), (∀ e ∈ l, e.1 ≠ k) → l.filter (·.1 ≠ k) = l := fun l hl =>
    List.filter_eq_self.2 fun e he => by simpa using hl e he
  rw [fiber_erase]
  by_cases ha : a' = a
  · subst ha
    obtain ⟨l, e, hl⟩ : ∃ l e, m.fiber f a' = l ++ [e] :=
      ⟨_, _, (List.dropLast_append_getLast (List.ne_nil_of_length_pos (by omega))).symm⟩
    have hil : i = l.length := by
      rw [hl, List.length_append, List.length_singleton] at hlt hlast
      omega
    have he : e = (k, u) := by simpa [hl, hil] using hi
    have hout : ∀ e' ∈ l, e'.1 ≠ k := by
      have hnd := nodup_fiber (m := m) (f := f) (a := a')
      rw [hl, he, List.map_append, List.nodup_append] at hnd
      exact fun e' he' => hnd.2.2 _ (List.mem_map_of_mem he') _ (by simp)
    rw [hl, List.filter_append, hkeep l hout, he]
    by_cases hj : j = l.length
    · simp [hj, hil]
    · simp only [hil, Prod.mk.injEq, true_and, hj, if_false, ne_eq, not_true, decide_false,
        List.filter_singleton, Bool.cond_false, List.append_nil, List.getElem?_append]
      split
      · rfl
      · rw [List.getElem?_eq_none (by omega), List.getElem?_eq_none (by simp; omega)]
  · have hout : ∀ e ∈ m.fiber f a', e.1 ≠ k := by
      rintro e he rfl
      have h₁ := (mem_fiber.1 he).2
      have h₂ := (mem_fiber.1 (List.mem_of_getElem? hi)).2
      exact ha (h₁.symm.trans h₂)
    rw [hkeep _ hout, if_neg (fun h => ha (Prod.mk.inj h).1)]

end OrderedMap

end Lib
