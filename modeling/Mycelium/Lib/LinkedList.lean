import Mathlib.Data.List.Nodup
import Mathlib.Data.List.Basic

/-!
# Linked lists with iterators

A linked list as its nodes in order, each with a name of its own.  An iterator is the name of a node
and stays valid until this node is erased, whatever happens to the others.  The operations fail on
an iterator that is not valid for them.

Every valid iterator is `front b` for a part `b` at the end of the list.  The lemmas `deref_front`,
`next_front` and `erase_front` say what the operations do when the nodes are cut at the iterator.
-/

namespace Lib

/-- A linked list. -/
structure LinkedList (α : Type) where
  /-- The nodes in order, with their names. -/
  nodes : List (ℕ × α)
  nodup : (nodes.map Prod.fst).Nodup

namespace LinkedList

variable {α : Type}

/-- An iterator points to a node; `none` is the one past the last node. -/
abbrev Iterator := Option ℕ

/-- The iterator to the first of some nodes. -/
def front (nodes : List (ℕ × α)) : Iterator := nodes.head?.map Prod.fst

/-- The nodes from an iterator on. -/
def rest (l : LinkedList α) : Iterator → List (ℕ × α)
  | none => []
  | some n => l.nodes.dropWhile fun x => x.1 != n

/-! ### The operations -/

def ofList (xs : List α) : LinkedList α where
  nodes := (List.range xs.length).zip xs
  nodup := by
    rw [List.map_fst_zip (by simp)]
    exact List.nodup_range

def toList (l : LinkedList α) : List α := l.nodes.map Prod.snd

def begin (l : LinkedList α) : Iterator := front l.nodes

/-- The value of the node under an iterator. -/
def deref (l : LinkedList α) (i : Iterator) : Option α := (l.rest i).head?.map Prod.snd

/-- The iterator moved to the next node.  The list is circular: past the last node there is nothing
to move to, but in an empty list that place is its own successor. -/
def next (l : LinkedList α) (i : Iterator) : Option Iterator :=
  match l.rest i with
  | [] => if l.nodes.isEmpty && i.isNone then some none else none
  | _ :: b => some (front b)

/-- The list without the node under an iterator, and the iterator to the node after it. -/
def erase (l : LinkedList α) (i : Iterator) : Option (LinkedList α × Iterator) :=
  match l.rest i with
  | [] => none
  | _ :: b =>
      some ({ nodes := l.nodes.filter fun x => some x.1 != i
              nodup := l.nodup.sublist (List.filter_sublist.map Prod.fst) }, front b)

/-! ### Iterators and the cut of the nodes -/

@[simp] lemma toList_ofList (xs : List α) : (ofList xs).toList = xs :=
  List.map_snd_zip (by simp)

@[simp] lemma front_nil : front ([] : List (ℕ × α)) = none := rfl

@[simp] lemma front_cons (x : ℕ × α) (b : List (ℕ × α)) : front (x :: b) = some x.1 := rfl

variable {l : LinkedList α} {a b : List (ℕ × α)} {x : ℕ × α}

/-- A node before the cut has another name than the node at it. -/
lemma fst_ne_of_mem (h : l.nodes = a ++ x :: b) {y : ℕ × α} (hy : y ∈ a ∨ y ∈ b) : y.1 ≠ x.1 := by
  have hnodup := l.nodup
  rw [h, List.map_append, List.map_cons, List.nodup_middle, List.nodup_cons,
    ← List.map_append] at hnodup
  intro hyx
  exact hnodup.1 (hyx ▸ List.mem_map_of_mem (List.mem_append.2 hy))

lemma rest_front (h : l.nodes = a ++ b) : l.rest (front b) = b := by
  cases b with
  | nil => rfl
  | cons x b =>
      have hskip : ∀ y ∈ a, (y.1 != x.1) = true := fun y hy =>
        bne_iff_ne.2 (fst_ne_of_mem h (Or.inl hy))
      rw [front_cons, rest, h, List.dropWhile_append_of_pos hskip,
        List.dropWhile_cons_of_neg (by simp)]

/-- Two iterators are equal when the nodes from them on are. -/
lemma front_inj {a' b' : List (ℕ × α)} (h : l.nodes = a ++ b) (h' : l.nodes = a' ++ b') :
    front b = front b' ↔ b = b' := by
  constructor
  · intro hfront
    rw [← rest_front h, hfront, rest_front h']
  · rintro rfl
    rfl

lemma deref_front (h : l.nodes = a ++ x :: b) : l.deref (front (x :: b)) = some x.2 := by
  rw [deref, rest_front h]
  rfl

lemma next_front (h : l.nodes = a ++ x :: b) : l.next (front (x :: b)) = some (front b) := by
  rw [next, rest_front h]

lemma next_begin_of_nil (h : l.nodes = []) : l.next l.begin = some none := by
  rw [next, begin, h, front_nil, rest]
  rfl

lemma erase_front (h : l.nodes = a ++ x :: b) :
    ∃ l', l.erase (front (x :: b)) = some (l', front b) ∧ l'.nodes = a ++ b := by
  rw [erase, rest_front h]
  refine ⟨_, rfl, ?_⟩
  have hkeep : ∀ y ∈ a ++ b, (some y.1 != front (x :: b)) = true := fun y hy => by
    simpa using fst_ne_of_mem h (List.mem_append.1 hy)
  rw [List.forall_mem_append] at hkeep
  simp only [h, List.filter_append, List.filter_cons]
  rw [List.filter_eq_self.2 hkeep.1, List.filter_eq_self.2 hkeep.2]
  simp

end LinkedList

end Lib
