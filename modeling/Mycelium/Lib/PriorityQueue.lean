import Mathlib.Data.List.MinMax
import Mathlib.Data.Multiset.AddSub
import Mathlib.Algebra.Order.Group.Multiset

/-!
# Priority queues

A priority queue by what its operations promise: the top is some element with a greatest key.
Nothing is said about which one, so that what is proved holds of a heap in any state.
`ofList` is an implementation on lists.
-/

namespace Lib

/-- A priority queue on `α`, ordered by `key`. -/
structure PriorityQueue {α κ : Type} [LinearOrder κ] (key : α → κ) where
  Carrier : Type
  empty : Carrier
  push : Carrier → α → Carrier
  top? : Carrier → Option α
  pop : Carrier → Carrier
  size : Carrier → ℕ
  elems : Carrier → Multiset α
  elems_empty : elems empty = 0
  elems_push : ∀ q a, elems (push q a) = a ::ₘ elems q
  size_eq : ∀ q, size q = (elems q).card
  top?_eq_none_iff : ∀ q, top? q = none ↔ elems q = 0
  le_top : ∀ q a, top? q = some a → ∀ b ∈ elems q, key b ≤ key a
  elems_pop : ∀ q a, top? q = some a → elems q = a ::ₘ elems (pop q)

namespace PriorityQueue

variable {α κ : Type} [LinearOrder κ] {key : α → κ}

/-- The implementation that keeps a list and looks for the top. -/
def ofList [DecidableEq α] (key : α → κ) : PriorityQueue key where
  Carrier := List α
  empty := []
  push q a := a :: q
  top? q := q.argmax key
  pop q := match q.argmax key with
    | some a => q.erase a
    | none => q
  size q := q.length
  elems q := q
  elems_empty := rfl
  elems_push _ _ := rfl
  size_eq _ := rfl
  top?_eq_none_iff q := by simp
  le_top q a h b hb := List.le_of_mem_argmax (by simpa using hb) h
  elems_pop q a h := by
    have hmem : a ∈ q := List.argmax_mem h
    simp only [h, Multiset.cons_coe, Multiset.coe_eq_coe]
    exact List.perm_cons_erase hmem

variable (Q : PriorityQueue key)

lemma top_mem {q : Q.Carrier} {a : α} (h : Q.top? q = some a) : a ∈ Q.elems q := by
  rw [Q.elems_pop q a h]
  exact Multiset.mem_cons_self a _

/-- Takes elements from the top while they meet a condition; `fuel` bounds the turns. -/
def popWhile (p : α → Bool) : ℕ → Q.Carrier → Q.Carrier × List α
  | 0, q => (q, [])
  | fuel + 1, q =>
      match Q.top? q with
      | some a =>
          if p a then
            let r := popWhile p fuel (Q.pop q)
            (r.1, a :: r.2)
          else (q, [])
      | none => (q, [])

variable {Q} {p : α → Bool} {q : Q.Carrier}

/-- What is taken and what stays is what was there, and what is taken meets the condition. -/
lemma popWhile_elems (fuel : ℕ) (q : Q.Carrier) :
    Q.elems q = ((Q.popWhile p fuel q).2 : Multiset α) + Q.elems (Q.popWhile p fuel q).1 ∧
      ∀ a ∈ (Q.popWhile p fuel q).2, p a = true := by
  induction fuel generalizing q with
  | zero => simp [popWhile]
  | succ fuel ih =>
      rw [popWhile]
      cases h : Q.top? q with
      | none => simp
      | some a =>
          by_cases hp : p a = true
          · obtain ⟨hsum, hall⟩ := ih (Q.pop q)
            simp only [hp, if_true]
            refine ⟨?_, ?_⟩
            · rw [Q.elems_pop q a h, ← Multiset.cons_coe, Multiset.cons_add, ← hsum]
            · intro b hb
              rcases List.mem_cons.1 hb with rfl | hb
              · exact hp
              · exact hall b hb
          · simp [hp]

/-- With enough fuel the loop stops at an element that does not meet the condition. -/
lemma popWhile_stop (fuel : ℕ) (q : Q.Carrier) (hfuel : (Q.elems q).card ≤ fuel) :
    ∀ a, Q.top? (Q.popWhile p fuel q).1 = some a → p a = false := by
  -- on the fuel: every turn takes an element
  induction fuel generalizing q with
  | zero =>
      intro a ha
      have hmem := Q.top_mem ha
      rw [popWhile, Multiset.card_eq_zero.1 (Nat.le_zero.1 hfuel)] at hmem
      exact absurd hmem (Multiset.notMem_zero a)
  | succ fuel ih =>
      rw [popWhile]
      cases h : Q.top? q with
      | none =>
          intro a ha
          simp only at ha
          rw [h] at ha
          exact absurd ha (by simp)
      | some b =>
          by_cases hp : p b = true
          · simp only [hp, if_true]
            refine ih (Q.pop q) ?_
            rw [Q.elems_pop q b h, Multiset.card_cons] at hfuel
            omega
          · intro a ha
            simp only [hp, Bool.false_eq_true, if_false] at ha
            rw [h, Option.some.injEq] at ha
            rw [← ha]
            simpa using hp

/-- Taking the elements with the key of the top takes all of them. -/
lemma popWhile_complete {a : α} (ha : Q.top? q = some a) (hp : ∀ b, p b = true ↔ key b = key a) :
    ∀ b ∈ Q.elems (Q.popWhile p (Q.size q) q).1, key b ≠ key a := by
  intro b hb hba
  have hsum := (popWhile_elems (p := p) (Q.size q) q).1
  cases htop : Q.top? (Q.popWhile p (Q.size q) q).1 with
  | none =>
      rw [(Q.top?_eq_none_iff _).1 htop] at hb
      exact absurd hb (Multiset.notMem_zero b)
  | some c =>
      -- the new top is not below `b`, and it was not above the old top
      have hstop := popWhile_stop (p := p) (Q.size q) q (Q.size_eq q).ge c htop
      have hle : key b ≤ key c := Q.le_top _ c htop b hb
      have hc : c ∈ Q.elems q := by
        rw [hsum]
        exact Multiset.mem_add.2 (Or.inr (Q.top_mem htop))
      have hge : key c ≤ key a := Q.le_top q a ha c hc
      rw [hba] at hle
      rw [(hp c).2 (le_antisymm hge hle)] at hstop
      exact absurd hstop (by simp)

end PriorityQueue

end Lib
