import Mycelium.Common.Path
import Mycelium.Lib.LinkedList
import Mycelium.Lib.Machine

/-!
# The iterators of `Path::normalize`

`Path.normalize` cuts the list of segments at the iterator `i`.  The source has three iterators into
a `std::list`, erases nodes under two of them, and finds the predecessor of `i` by a walk from the
front after every turn.  Here these operations are done one by one, on a list whose nodes have
names, and each of them fails on an iterator that is not valid.  `normalizeRun_eq` says that none
fails, that the loops end, and that the result is the one of `Path.normalize`.
-/

namespace Mycelium

open Lib

namespace Path

/-- The list, the flag and the iterators in the loop of `Path::normalize`. -/
structure Normalizing where
  segmt : LinkedList Segment
  slashEnd : Bool
  i : LinkedList.Iterator
  j : LinkedList.Iterator

/-- `*i == ".." && j != i && *j != ".." && *j != "."`. -/
def cancels (s : Normalizing) : Option Bool := do
  let x ← s.segmt.deref s.i
  if x = Segment.dotdot ∧ s.j ≠ s.i then
    let y ← s.segmt.deref s.j
    some (y ≠ Segment.dotdot ∧ y ≠ Segment.dot)
  else some false

/-- `i=segmt.erase(i)`, and the flag when this was the last segment. -/
def eraseAtI (s : Normalizing) : Option Normalizing := do
  let erased ← s.segmt.erase s.i
  some { s with
    segmt := erased.1
    i := erased.2
    slashEnd := s.slashEnd || erased.2.isNone }

/-- The three branches of the loop of `Path::normalize`. -/
def branch (s : Normalizing) : Option Normalizing := do
  if ← cancels s then
    let erased ← s.segmt.erase s.j
    eraseAtI { s with segmt := erased.1 }
  else if (← s.segmt.deref s.i) = Segment.dot then eraseAtI s
  else
    let j ← s.segmt.next s.j
    let i ← s.segmt.next s.i
    some { s with i, j }

/-- The walk of `k` from the front to `i`; the result is `j`, one node behind. -/
def walk (fuel : ℕ) (segmt : LinkedList Segment) (i : LinkedList.Iterator) :
    Option LinkedList.Iterator := do
  let jk ← whileM (fun jk => jk.2 != i)
    (fun jk => do
      let k ← segmt.next jk.2
      some (jk.2, k))
    fuel (segmt.begin, segmt.begin)
  some jk.1

/-- One turn of the loop. -/
def turn (fuel : ℕ) (s : Normalizing) : Option Normalizing := do
  let s ← branch s
  let j ← walk fuel s.segmt s.i
  some { s with j }

/-- `Path::normalize` with its iterators; `none` when an iterator is used that is not valid for the
operation, or a loop takes more turns than the number says. -/
def normalizeRun (fuel : ℕ) (p : Path) : Option Path := do
  let segmt := LinkedList.ofList p.segmt
  let i ← segmt.next segmt.begin
  let s ← whileM (fun s => s.i != none) (turn fuel) fuel
    { segmt, slashEnd := p.slashEnd, i, j := segmt.begin }
  some { p with segmt := s.segmt.toList, slashEnd := s.slashEnd }

/-! ### The walk -/

/-- The iterator one node before a cut, or at the cut when there is no node before it. -/
def behind (a b : List (ℕ × Segment)) : LinkedList.Iterator :=
  LinkedList.front (a.drop (a.length - 1) ++ b)

@[simp] lemma behind_nil (b : List (ℕ × Segment)) : behind [] b = LinkedList.front b := rfl

@[simp] lemma behind_concat (a b : List (ℕ × Segment)) (y : ℕ × Segment) :
    behind (a ++ [y]) b = LinkedList.front (y :: b) := by
  simp [behind]

lemma walk_eq {segmt : LinkedList Segment} {a b : List (ℕ × Segment)} {fuel : ℕ}
    (h : segmt.nodes = a ++ b) (hfuel : a.length ≤ fuel) :
    walk fuel segmt (LinkedList.front b) = some (behind a b) := by
  -- `k` has passed the nodes of `c`, and those of `d` are before it
  let I : ℕ → LinkedList.Iterator × LinkedList.Iterator → Prop := fun m jk =>
    ∃ c d, a = c ++ d ∧ d.length = m ∧ jk = (behind c (d ++ b), LinkedList.front (d ++ b))
  have hbody : ∀ m jk, I m jk → (jk.2 != LinkedList.front b) = true →
      ∃ n jk', n < m ∧ ((segmt.next jk.2).bind fun k' => some (jk.2, k')) = some jk' ∧ I n jk' := by
    rintro m jk ⟨c, d, hcd, hm, rfl⟩ hk
    cases d with
    | nil => simp at hk
    | cons y d =>
        have hcut : segmt.nodes = c ++ y :: (d ++ b) := by rw [h, hcd]; simp
        refine ⟨d.length, (_, _), by simp [← hm], ?_, c ++ [y], d, by simp [hcd], rfl, rfl⟩
        rw [List.cons_append, LinkedList.next_front hcut, behind_concat]
        rfl
  have hstart : I a.length (segmt.begin, segmt.begin) := by
    refine ⟨[], a, rfl, rfl, ?_⟩
    rw [behind_nil, LinkedList.begin, h]
  obtain ⟨m, jk, hrun, ⟨c, d, hcd, -, rfl⟩, hend⟩ := whileM_total hbody hstart hfuel
  have hd : d = [] := by
    have hfront : LinkedList.front (d ++ b) = LinkedList.front b := by simpa using hend
    rw [LinkedList.front_inj (a := c) (by rw [h, hcd, List.append_assoc]) h] at hfront
    simpa using hfront
  subst hd
  rw [List.append_nil] at hcd
  simp only [walk, Option.bind_eq_bind] at hrun ⊢
  rw [hrun, hcd]
  rfl

/-! ### One turn -/

/-- The segments under some nodes. -/
def values (a : List (ℕ × Segment)) : List Segment := a.map Prod.snd

@[simp] lemma values_nil : values [] = [] := rfl

@[simp] lemma values_cons (x : ℕ × Segment) (a : List (ℕ × Segment)) :
    values (x :: a) = x.2 :: values a := rfl

@[simp] lemma values_append (a b : List (ℕ × Segment)) : values (a ++ b) = values a ++ values b :=
  List.map_append

/-- The nodes are cut at the iterator `i`, and `j` is one node behind. -/
structure CutAt (s : Normalizing) (a b : List (ℕ × Segment)) : Prop where
  nodes : s.segmt.nodes = a ++ b
  i_eq : s.i = LinkedList.front b
  j_eq : s.j = behind a b

variable {s : Normalizing} {a b : List (ℕ × Segment)} {x y : ℕ × Segment}

lemma isNone_front (b : List (ℕ × Segment)) : (LinkedList.front b).isNone = (values b).isEmpty := by
  cases b <;> rfl

lemma eraseAtI_eq (h : s.segmt.nodes = a ++ x :: b) (hi : s.i = LinkedList.front (x :: b)) :
    ∃ t, eraseAtI s = some t ∧ t.segmt.nodes = a ++ b ∧ t.i = LinkedList.front b ∧
      t.slashEnd = (s.slashEnd || (values b).isEmpty) := by
  obtain ⟨l, hl, hnodes⟩ := LinkedList.erase_front h
  rw [eraseAtI, hi, hl]
  exact ⟨_, rfl, hnodes, rfl, by rw [isNone_front]⟩

/-- The first branch is taken for a `..` with a name before it. -/
lemma cancels_concat (h : CutAt s (a ++ [y]) (x :: b)) :
    cancels s =
      some (decide (x.2 = Segment.dotdot ∧ y.2 ≠ Segment.dotdot ∧ y.2 ≠ Segment.dot)) := by
  have hy : s.segmt.nodes = a ++ y :: x :: b := by rw [h.nodes]; simp
  have hji : s.j ≠ s.i := by
    rw [h.i_eq, h.j_eq, behind_concat, Ne, LinkedList.front_inj hy h.nodes]
    simp
  have hderefi : s.segmt.deref s.i = some x.2 := by rw [h.i_eq, LinkedList.deref_front h.nodes]
  have hderefj : s.segmt.deref s.j = some y.2 := by
    rw [h.j_eq, behind_concat, LinkedList.deref_front hy]
  by_cases hx : x.2 = Segment.dotdot <;> simp [cancels, hderefi, hderefj, hji, hx]

/-- At the front of the list `j` is `i`, and nothing is cancelled. -/
lemma cancels_nil (h : CutAt s [] (x :: b)) : cancels s = some false := by
  have hderef : s.segmt.deref s.i = some x.2 := by rw [h.i_eq, LinkedList.deref_front h.nodes]
  have hji : s.j = s.i := by rw [h.i_eq, h.j_eq, behind_nil]
  simp [cancels, hderef, hji]

/-- What one turn makes of a cut: the new cut is one node further, and the loop over segments goes
on with it. -/
def Advances (s : Normalizing) (a : List (ℕ × Segment)) (x : ℕ × Segment) (b : List (ℕ × Segment))
    (t : Normalizing) (a' : List (ℕ × Segment)) : Prop :=
  t.segmt.nodes = a' ++ b ∧ t.i = LinkedList.front b ∧ a'.length ≤ a.length + 1 ∧
    normalizeLoop (values a).reverse s.slashEnd (values (x :: b)) =
      normalizeLoop (values a').reverse t.slashEnd (values b)

/-- The two branches that keep the segment before `i`. -/
lemma branch_of_not_cancels (h : CutAt s a (x :: b)) (hc : cancels s = some false)
    (hdot : x.2 = Segment.dot →
      normalizeLoop (values a).reverse s.slashEnd (values (x :: b)) =
        normalizeLoop (values a).reverse (s.slashEnd || (values b).isEmpty) (values b))
    (hname : x.2 ≠ Segment.dot →
      normalizeLoop (values a).reverse s.slashEnd (values (x :: b)) =
        normalizeLoop (x.2 :: (values a).reverse) s.slashEnd (values b)) :
    ∃ t a', branch s = some t ∧ Advances s a x b t a' := by
  have hderef : s.segmt.deref s.i = some x.2 := by rw [h.i_eq, LinkedList.deref_front h.nodes]
  by_cases hx : x.2 = Segment.dot
  · obtain ⟨t, ht, hnodes, hi, he⟩ := eraseAtI_eq h.nodes h.i_eq
    refine ⟨t, a, ?_, hnodes, hi, by simp, by rw [hdot hx, he]⟩
    simp [branch, hc, hderef, hx, ht]
  · have hnext : s.segmt.next s.i = some (LinkedList.front b) := by
      rw [h.i_eq, LinkedList.next_front h.nodes]
    obtain ⟨j, hj⟩ : ∃ j, s.segmt.next s.j = some j := by
      rw [h.j_eq]
      rcases List.eq_nil_or_concat a with rfl | ⟨c, y, rfl⟩
      · exact ⟨_, LinkedList.next_front h.nodes⟩
      · have hy : s.segmt.nodes = c ++ y :: x :: b := by rw [h.nodes]; simp
        rw [List.concat_eq_append, behind_concat]
        exact ⟨_, LinkedList.next_front hy⟩
    refine ⟨{ s with i := LinkedList.front b, j := j }, a ++ [x], ?_, by simp [h.nodes], rfl,
      by simp, by rw [hname hx]; simp⟩
    simp [branch, hc, hderef, hx, hnext, hj]

/-- The iterators used in a turn are valid. -/
lemma branch_eq (h : CutAt s a (x :: b)) : ∃ t a', branch s = some t ∧ Advances s a x b t a' := by
  rcases List.eq_nil_or_concat a with rfl | ⟨c, y, rfl⟩
  · refine branch_of_not_cancels h (cancels_nil h) (fun hx => ?_) fun hx => ?_
    · simp [normalizeLoop, hx]
    · simp [normalizeLoop, hx]
  · rw [List.concat_eq_append] at h ⊢
    have hcancels := cancels_concat h
    by_cases hc : x.2 = Segment.dotdot ∧ y.2 ≠ Segment.dotdot ∧ y.2 ≠ Segment.dot
    · -- `erase(j)` leaves `i` where it is
      have hy : s.segmt.nodes = c ++ y :: x :: b := by rw [h.nodes]; simp
      obtain ⟨l, hl, hnodes⟩ := LinkedList.erase_front hy
      rw [← behind_concat c, ← h.j_eq] at hl
      obtain ⟨t, ht, hnodes', hi, he⟩ := eraseAtI_eq (s := { s with segmt := l }) hnodes h.i_eq
      refine ⟨t, c, ?_, hnodes', hi, by simp; omega, ?_⟩
      · simp [branch, hcancels, hc, hl, ht]
      · simp [normalizeLoop, hc, he]
    · have hrev : (values (c ++ [y])).reverse = y.2 :: (values c).reverse := by simp
      refine branch_of_not_cancels h (by rw [hcancels, decide_eq_false hc]) (fun hx => ?_)
        fun hx => ?_
      · rw [hrev, values_cons, normalizeLoop, if_neg hc, if_pos hx]
      · rw [hrev, values_cons, normalizeLoop, if_neg hc, if_neg hx]

/-! ### The whole run -/

lemma turn_eq {fuel : ℕ} (h : CutAt s a (x :: b)) (hfuel : s.segmt.nodes.length ≤ fuel) :
    ∃ t a', turn fuel s = some t ∧ CutAt t a' b ∧ Advances s a x b t a' := by
  obtain ⟨t, a', hbranch, hadv⟩ := branch_eq h
  obtain ⟨hnodes, hi, hlen, hloop⟩ := hadv
  have hwalk : walk fuel t.segmt t.i = some (behind a' b) := by
    rw [hi]
    refine walk_eq hnodes ?_
    rw [h.nodes, List.length_append, List.length_cons] at hfuel
    omega
  refine ⟨{ t with j := behind a' b }, a', ?_, ⟨hnodes, hi, rfl⟩, hnodes, hi, hlen, hloop⟩
  simp [turn, hbranch, hwalk]

/-- The loop with iterators computes what the loop over segments computes. -/
lemma whileM_turn {fuel : ℕ} {r : List Segment × Bool} (h : CutAt s a b)
    (hfuel : s.segmt.nodes.length ≤ fuel)
    (hr : normalizeLoop (values a).reverse s.slashEnd (values b) = r) :
    ∃ t, whileM (fun s => s.i != none) (turn fuel) fuel s = some t ∧
      (t.segmt.toList, t.slashEnd) = r := by
  let I : ℕ → Normalizing → Prop := fun m t =>
    ∃ a b, CutAt t a b ∧ b.length = m ∧ t.segmt.nodes.length ≤ fuel ∧
      normalizeLoop (values a).reverse t.slashEnd (values b) = r
  have hbody : ∀ m t, I m t → (t.i != none) = true →
      ∃ n u, n < m ∧ turn fuel t = some u ∧ I n u := by
    rintro m t ⟨a, b, hcut, hm, hlen, hr⟩ hi
    cases b with
    | nil =>
        rw [hcut.i_eq] at hi
        exact absurd hi (by simp)
    | cons x b =>
        obtain ⟨u, a', hturn, hcut', hnodes, -, ha', hloop⟩ := turn_eq hcut hlen
        refine ⟨b.length, u, by simp [← hm], hturn, a', b, hcut', rfl, ?_, hloop ▸ hr⟩
        rw [hcut.nodes, List.length_append, List.length_cons] at hlen
        rw [hnodes, List.length_append]
        omega
  have hb : b.length ≤ fuel := by
    rw [h.nodes, List.length_append] at hfuel
    omega
  obtain ⟨m, t, hrun, ⟨a', b', hcut, -, -, hr'⟩, hend⟩ :=
    whileM_total hbody ⟨a, b, h, rfl, hfuel, hr⟩ hb
  have hb' : b' = [] := by
    cases b' with
    | nil => rfl
    | cons x b' =>
        rw [hcut.i_eq] at hend
        exact absurd hend (by simp)
  subst hb'
  refine ⟨t, hrun, ?_⟩
  rw [← hr', values_nil, normalizeLoop, List.reverse_reverse, LinkedList.toList, hcut.nodes,
    List.append_nil, values]

/-- No iterator of `Path::normalize` is used where it is not valid, and both loops take at most as
many turns as there are segments. -/
theorem normalizeRun_eq (p : Path) {fuel : ℕ} (hfuel : p.segmt.length ≤ fuel) :
    normalizeRun fuel p = some p.normalize := by
  have hvalues : values (LinkedList.ofList p.segmt).nodes = p.segmt :=
    LinkedList.toList_ofList p.segmt
  have hlen : (LinkedList.ofList p.segmt).nodes.length ≤ fuel := by
    rw [← hvalues, values, List.length_map] at hfuel
    exact hfuel
  cases hnodes : (LinkedList.ofList p.segmt).nodes with
  | nil =>
      -- `i` stays at the end of the empty list
      rw [hnodes, values_nil] at hvalues
      have hnext := LinkedList.next_begin_of_nil hnodes
      simp only [normalizeRun, hnext, Option.bind_eq_bind, Option.bind_some]
      rw [whileM_of_not (by rfl), normalize, ← hvalues]
      simp [hvalues]
  | cons x b =>
      rw [hnodes, values_cons] at hvalues
      have hnext : (LinkedList.ofList p.segmt).next (LinkedList.ofList p.segmt).begin =
          some (LinkedList.front b) := by
        rw [LinkedList.begin, hnodes]
        exact LinkedList.next_front (a := []) hnodes
      have hcut : CutAt ⟨LinkedList.ofList p.segmt, p.slashEnd, LinkedList.front b,
          (LinkedList.ofList p.segmt).begin⟩ ([] ++ [x]) b :=
        ⟨hnodes, rfl, by rw [behind_concat, LinkedList.begin, hnodes]⟩
      obtain ⟨t, hrun, ht⟩ := whileM_turn hcut hlen rfl
      simp only [normalizeRun, hnext, Option.bind_eq_bind, Option.bind_some, hrun]
      rw [normalize, ← hvalues]
      simp only [List.nil_append, values_cons, values_nil, List.reverse_singleton] at ht
      simp only [← ht]

/-- `Path::normalize` ends with the path `q`. -/
def Runs (p q : Path) : Prop := ∃ n, ∀ fuel ≥ n, normalizeRun fuel p = some q

lemma runs_normalize (p : Path) : Runs p p.normalize :=
  ⟨p.segmt.length, fun _ hfuel => normalizeRun_eq p hfuel⟩

/-- A normalized path that is printed and read is normalized. -/
lemma get_normalize_assign_get (p : Path) :
    (assign p.normalize.get).normalize.get = p.normalize.get := by
  by_cases hs : p.normalize.segmt = []
  · have hsegmt : (assign p.normalize.get).segmt = [] := by
      rw [get_of_segmt_eq_nil hs]
      split <;> rfl
    rw [normalize, hsegmt, get_assign_get]
  · rw [assign_get hs, normalize_normalize]

/-- `Path::normalize` ends on every path without the use of an invalid iterator; run again on its
result, or on the path that is read from the text of its result, it changes nothing. -/
theorem normalize_ends_idempotent (s : Str) :
    ∃ p, Runs (assign s) p ∧ Runs p p ∧ ∃ q, Runs (assign p.get) q ∧ q.get = p.get := by
  refine ⟨(assign s).normalize, runs_normalize _, ?_, _, runs_normalize _,
    get_normalize_assign_get _⟩
  have hagain := runs_normalize (assign s).normalize
  rwa [normalize_normalize] at hagain

end Path

end Mycelium
