import Mycelium.Common.Url
import Mycelium.Lib.Machine
import Mycelium.Lib.OrderedIndex
import Mycelium.Lib.PriorityQueue

/-!
# The URL classifier

`Url_classifier` groups the URLs to be crawled by host in child queues; what fits in none waits in
the priority queue `top_q`.  The table of the child queues is a multi-index container with an
index by host, a sequence and an index by number.  The deque of a child queue is shared between the
copies of its table element, so that the deques are kept beside the table, by number.
-/

namespace Mycelium

open Lib

/-- What `Compare_hostname` compares. -/
def hostKey (u : Url) : List ℕ := Str.key u.host

lemma hostKey_eq_iff {u v : Url} : hostKey u = hostKey v ↔ u.host = v.host :=
  Str.key_injective.eq_iff

/-! ### The table -/

/-- `table_elmt_t`, without the pointer to its deque. -/
structure TableElmt where
  host : Str := []
  n : ℕ
deriving DecidableEq, Repr

namespace TableElmt

/-- The key of the index by host. -/
def key (e : TableElmt) : List ℕ := Str.key e.host

end TableElmt

/-- `table_t`: the same elements in the sequence and in the index by host, each number once. -/
structure Table where
  seq : List TableElmt
  byHost : OrderedIndex TableElmt.key
  perm : byHost.toList.Perm seq
  nodup : (seq.map TableElmt.n).Nodup

namespace Table

/-- The numbers of the child queues. -/
def ns (t : Table) : List ℕ := t.seq.map TableElmt.n

def empty : Table where
  seq := []
  byHost := OrderedIndex.empty
  perm := List.Perm.nil
  nodup := List.nodup_nil

/-- `get<host>().find`. -/
def findHost (t : Table) (host : Str) : Option TableElmt := t.byHost.find (Str.key host)

/-- `get<n>().find`. -/
def findN (t : Table) (n : ℕ) : Option TableElmt := t.seq.find? fun e => e.n == n

/-- `insert`; the index by number refuses a number that is there. -/
def insert (t : Table) (e : TableElmt) : Table :=
  if h : e.n ∈ t.ns then t
  else
    { seq := t.seq ++ [e]
      byHost := t.byHost.insert e
      perm := OrderedIndex.inserted_insert.perm.trans
        ((t.perm.cons e).trans (List.perm_append_singleton e t.seq).symm)
      nodup := by
        rw [List.map_append, List.nodup_append]
        refine ⟨t.nodup, List.nodup_singleton _, ?_⟩
        rintro n hn m hm rfl
        rw [List.map_singleton, List.mem_singleton] at hm
        exact h (hm ▸ hn) }

/-- The element with the number of `e` gives way to `e`. -/
def overwrite (e a : TableElmt) : TableElmt := if a.n = e.n then e else a

lemma overwrite_n (e a : TableElmt) : (overwrite e a).n = a.n := by
  rw [overwrite]
  split
  · next h => exact h.symm
  · rfl

lemma map_overwrite_n (e : TableElmt) (l : List TableElmt) :
    (l.map (overwrite e)).map TableElmt.n = l.map TableElmt.n := by
  rw [List.map_map]
  exact List.map_congr_left fun a _ => overwrite_n e a

lemma map_overwrite_of_notMem {e : TableElmt} {l : List TableElmt}
    (h : e.n ∉ l.map TableElmt.n) : l.map (overwrite e) = l := by
  refine (List.map_congr_left fun a ha => ?_).trans (List.map_id l)
  have hn : a.n ≠ e.n := fun hn => h (hn ▸ List.mem_map_of_mem ha)
  exact if_neg hn

lemma perm_map_overwrite {e : TableElmt} {l : List TableElmt} (hnodup : (l.map TableElmt.n).Nodup)
    (h : e.n ∈ l.map TableElmt.n) :
    (l.map (overwrite e)).Perm (e :: l.eraseP fun a => a.n == e.n) := by
  induction l with
  | nil => exact absurd h (by simp)
  | cons a l ih =>
      rw [List.map_cons, List.nodup_cons] at hnodup
      by_cases ha : a.n = e.n
      · rw [List.map_cons, overwrite, if_pos ha, List.eraseP_cons_of_pos (by simpa using ha),
          map_overwrite_of_notMem (ha ▸ hnodup.1)]
      · have hmem : e.n ∈ l.map TableElmt.n := by
          rw [List.map_cons, List.mem_cons] at h
          exact h.resolve_left (Ne.symm ha)
        rw [List.map_cons, overwrite, if_neg ha, List.eraseP_cons_of_neg (by simpa using ha)]
        exact ((ih hnodup.2 hmem).cons a).trans (List.Perm.swap e a _)

lemma pairwise_n {l : List TableElmt} (h : (l.map TableElmt.n).Nodup) (n : ℕ) :
    l.Pairwise fun a b => (a.n == n) = true → (b.n == n) = true → False := by
  refine (List.pairwise_map.1 h).imp ?_
  intro a b hab ha hb
  exact hab ((beq_iff_eq.1 ha).trans (beq_iff_eq.1 hb).symm)

/-- `replace` at the position of the element with the number of `e`. -/
def replace (t : Table) (e : TableElmt) : Table :=
  if h : e.n ∈ t.ns then
    { seq := t.seq.map (overwrite e)
      byHost := t.byHost.replace (fun a => a.n == e.n) e
      perm := by
        have hpair := pairwise_n ((t.perm.map TableElmt.n).nodup_iff.2 t.nodup) e.n
        have herase := List.Perm.eraseP (fun a => a.n == e.n) hpair t.perm
        exact OrderedIndex.inserted_replace.perm.trans
          ((herase.cons e).trans (perm_map_overwrite t.nodup h).symm)
      nodup := by
        rw [map_overwrite_n]
        exact t.nodup }
  else t

variable {t : Table} {e a : TableElmt} {h : Str} {n : ℕ}

lemma nodup_ns (t : Table) : t.ns.Nodup := t.nodup

lemma n_mem_ns (h : e ∈ t.seq) : e.n ∈ t.ns := List.mem_map_of_mem h

/-- Two elements with one number are one element. -/
lemma eq_of_n_eq (he : e ∈ t.seq) (ha : a ∈ t.seq) (hn : e.n = a.n) : e = a :=
  List.inj_on_of_nodup_map t.nodup he ha hn

lemma mem_byHost : e ∈ t.byHost.toList ↔ e ∈ t.seq := t.perm.mem_iff

lemma mem_of_findN (hf : t.findN n = some e) : e ∈ t.seq ∧ e.n = n :=
  ⟨List.mem_of_find?_eq_some hf, by simpa using List.find?_some hf⟩

lemma notMem_of_findN (hf : t.findN n = none) : n ∉ t.ns := by
  intro hn
  obtain ⟨e, he, rfl⟩ := List.mem_map.1 hn
  exact absurd (List.find?_eq_none.1 hf e he) (by simp)

lemma exists_findN (hn : n ∈ t.ns) : ∃ e, t.findN n = some e := by
  cases hf : t.findN n with
  | none => exact absurd hn (notMem_of_findN hf)
  | some e => exact ⟨e, rfl⟩

lemma mem_of_findHost (hf : t.findHost h = some e) : e ∈ t.seq ∧ e.host = h := by
  have hkey : e.key = Str.key h := OrderedIndex.key_of_find hf
  exact ⟨mem_byHost.1 (OrderedIndex.mem_of_find hf), Str.key_injective hkey⟩

lemma findHost_eq_none_iff : t.findHost h = none ↔ ∀ e ∈ t.seq, e.host ≠ h := by
  rw [findHost, OrderedIndex.find_eq_none_iff]
  refine forall_congr' fun e => ?_
  rw [mem_byHost, TableElmt.key, Ne, Str.key_injective.eq_iff]

/-! What `insert` and `replace` do to the elements, and to the search by host. -/

lemma ns_insert (hn : e.n ∉ t.ns) : (t.insert e).ns = t.ns ++ [e.n] := by
  rw [insert, dif_neg hn, ns, List.map_append]
  rfl

lemma mem_insert (hn : e.n ∉ t.ns) : a ∈ (t.insert e).seq ↔ a ∈ t.seq ∨ a = e := by
  rw [insert, dif_neg hn]
  simp

lemma findHost_insert_self (hn : e.n ∉ t.ns) (hf : t.findHost e.host = none) :
    (t.insert e).findHost e.host = some e := by
  rw [insert, dif_neg hn]
  exact OrderedIndex.find_insert_self (b := e) hf

lemma findHost_insert_of_ne (hn : e.n ∉ t.ns) (hh : e.host ≠ h) :
    (t.insert e).findHost h = t.findHost h := by
  rw [insert, dif_neg hn]
  exact OrderedIndex.find_insert_of_ne (Str.key_injective.ne hh)

lemma seq_replace (hn : e.n ∈ t.ns) : (t.replace e).seq = t.seq.map (overwrite e) := by
  rw [replace, dif_pos hn]

lemma ns_replace : (t.replace e).ns = t.ns := by
  rw [replace]
  split
  · exact map_overwrite_n e t.seq
  · rfl

lemma mem_replace (hn : e.n ∈ t.ns) :
    a ∈ (t.replace e).seq ↔ a = e ∨ a ∈ t.seq ∧ a.n ≠ e.n := by
  have hp : (t.seq.map (overwrite e)).Perm _ := perm_map_overwrite t.nodup hn
  rw [replace, dif_pos hn, hp.mem_iff, List.mem_cons]
  refine or_congr_right ⟨fun ha => ⟨List.mem_of_mem_eraseP ha, ?_⟩, ?_⟩
  · -- the only element with this number has been erased
    intro han
    have hnodup := (hp.map TableElmt.n).nodup_iff.1 (by rw [map_overwrite_n]; exact t.nodup)
    rw [List.map_cons, List.nodup_cons] at hnodup
    have hmem := List.mem_map_of_mem (f := TableElmt.n) ha
    exact hnodup.1 (han ▸ hmem)
  · rintro ⟨ha, han⟩
    exact (List.mem_eraseP_of_neg (by simpa using han)).2 ha

lemma findHost_replace_self (hn : e.n ∈ t.ns) (hf : t.findHost e.host = none) :
    (t.replace e).findHost e.host = some e := by
  rw [replace, dif_pos hn]
  exact OrderedIndex.find_replace_self (b := e) hf

lemma findHost_replace_of_ne (hh : e.host ≠ h) (hf : t.findHost h = some a)
    (ha : a.n ≠ e.n) : (t.replace e).findHost h = some a := by
  rw [replace]
  split
  · exact OrderedIndex.find_replace_of_ne (Str.key_injective.ne hh) hf (by simpa using ha)
  · exact hf

/-- The table `t'` is `t` with the child queue `n`, new or old, given to the host `h`. -/
structure Assigned (t : Table) (h : Str) (n : ℕ) (t' : Table) : Prop where
  mem : ∀ e ∈ t'.seq, e = { host := h, n := n } ∨ e ∈ t.seq ∧ e.n ≠ n
  find_self : t.findHost h = none → t'.findHost h = some { host := h, n := n }
  find_of_ne : ∀ k a, h ≠ k → t.findHost k = some a → a.n ≠ n → t'.findHost k = some a

lemma assigned_replace (hn : n ∈ t.ns) : Assigned t h n (t.replace { host := h, n := n }) where
  mem _ := (mem_replace (e := { host := h, n := n }) hn).1
  find_self := findHost_replace_self (e := { host := h, n := n }) hn
  find_of_ne _ _ hh hf ha := findHost_replace_of_ne hh hf ha

lemma assigned_insert (hn : n ∉ t.ns) : Assigned t h n (t.insert { host := h, n := n }) where
  mem e he := by
    rcases (mem_insert (e := { host := h, n := n }) hn).1 he with hold | rfl
    · exact Or.inr ⟨hold, fun hen => hn (hen ▸ n_mem_ns hold)⟩
    · exact Or.inl rfl
  find_self := findHost_insert_self (e := { host := h, n := n }) hn
  find_of_ne _ _ hh hf _ := (findHost_insert_of_ne (e := { host := h, n := n }) hn hh).trans hf

end Table

/-! ### The classifier -/

/-- `Url_classifier`.  `std::priority_queue` enters by what it promises. -/
structure UrlClassifier (Q : PriorityQueue hostKey) where
  topQ : Q.Carrier
  table : Table
  deques : ℕ → List Url

namespace UrlClassifier

variable {Q : PriorityQueue hostKey}

/-- `Url_classifier(N)`. -/
def new (Q : PriorityQueue hostKey) (N : ℕ) : UrlClassifier Q where
  topQ := Q.empty
  table := (List.range N).foldl (fun t i => t.insert { n := i }) Table.empty
  deques := fun _ => []

lemma ns_new (N : ℕ) : (new Q N).table.ns = List.range N := by
  rw [new]
  induction N with
  | zero => rfl
  | succ N ih =>
      rw [List.range_succ, List.foldl_append, List.foldl_cons, List.foldl_nil, Table.ns_insert, ih]
      rw [ih]
      simp

/-- `top_q.empty()`. -/
def emptyTop (c : UrlClassifier Q) : Bool := (Q.top? c.topQ).isNone

/-- `empty()`. -/
def empty (c : UrlClassifier Q) : Bool :=
  c.emptyTop && c.table.seq.all fun e => (c.deques e.n).isEmpty

/-- `empty(num)`. -/
def emptyAt (c : UrlClassifier Q) (num : ℕ) : Except Exn Bool :=
  match c.table.findN num with
  | some i => .ok (c.deques i.n).isEmpty
  | none => .error (.runtimeError (lit "no such num exist"))

/-- `size`. -/
def size (c : UrlClassifier Q) : ℕ :=
  c.table.seq.foldl (fun sum e => sum + (c.deques e.n).length) 0 + Q.size c.topQ

/-- Writes a deque. -/
def setDeque (c : UrlClassifier Q) (n : ℕ) (us : List Url) : UrlClassifier Q :=
  { c with deques := Function.update c.deques n us }

@[simp] lemma deques_setDeque (c : UrlClassifier Q) (n : ℕ) (us : List Url) :
    (c.setDeque n us).deques = Function.update c.deques n us := rfl

@[simp] lemma topQ_setDeque (c : UrlClassifier Q) (n : ℕ) (us : List Url) :
    (c.setDeque n us).topQ = c.topQ := rfl

/-- `push`. -/
def push (c : UrlClassifier Q) (u : Url) : UrlClassifier Q :=
  match c.table.findHost u.host with
  | some i => c.setDeque i.n (c.deques i.n ++ [u])
  | none =>
      -- some child queue is empty; `top_q` is not asked whether it holds the host
      match c.table.seq.find? fun j => (c.deques j.n).isEmpty with
      | some j =>
          let t : TableElmt := { j with host := u.host }
          { c.setDeque t.n (c.deques t.n ++ [u]) with table := c.table.replace t }
      | none => { c with topQ := Q.push c.topQ u }

/-- `pop(num)`, with the URL that it removes. -/
def pop (c : UrlClassifier Q) (num : ℕ) : Except Exn Url × UrlClassifier Q :=
  match c.table.findN num with
  | some i =>
      match c.deques i.n with
      | [] =>
          if c.emptyTop then (.error (.runtimeError (lit "empty")), c)
          else (.error (.runtimeError (lit "empty classifying queue")), c)
      | u :: us => (.ok u, c.setDeque i.n us)
  | none => (.error (.runtimeError (lit "No such queue")), c)

/-- The loop of `peek`: takes the URLs with the host of `t` from `top_q` to the deque of `t`. -/
def fill (c : UrlClassifier Q) (t : TableElmt) : UrlClassifier Q :=
  let r := Q.popWhile (fun u => u.host == t.host) (Q.size c.topQ) c.topQ
  { c.setDeque t.n (c.deques t.n ++ r.2) with topQ := r.1 }

/-- `front()`, which is undefined on an empty deque. -/
def front (c : UrlClassifier Q) (n : ℕ) : Except Exn Url :=
  match c.deques n with
  | u :: _ => .ok u
  | [] => .error (.logicError (lit "front of an empty deque"))

/-- `peek(num)`. -/
def peek (c : UrlClassifier Q) (num : ℕ) : Except Exn Url × UrlClassifier Q :=
  match c.table.findN num with
  | some i =>
      match c.deques i.n, Q.top? c.topQ with
      | [], none => (.error (.runtimeError (lit "empty")), c)
      | [], some v =>
          let t : TableElmt := { i with host := v.host }
          let c' := { c.fill t with table := c.table.replace t }
          (c'.front t.n, c')
      | u :: _, _ => (.ok u, c)
  | none =>
      -- a number without a child queue gets one
      match Q.top? c.topQ with
      | some v =>
          let t : TableElmt := { host := v.host, n := num }
          let c' := { (c.setDeque num []).fill t with table := c.table.insert t }
          (c'.front t.n, c')
      | none => (.error (.runtimeError (lit "empty")), c)

/-! ### The classifier as a machine -/

/-- The operations that change a classifier. -/
inductive Op where
  | push (u : Url)
  | peek (n : ℕ)
  | pop (n : ℕ)

/-- What a call gives back; for `pop` the URL that it removes. -/
inductive Answer where
  | pushed
  | peeked (u : Url)
  | popped (u : Url)
  | threw (e : Exn)

/-- The answer of a call that can throw. -/
def answer (f : Url → Answer) : Except Exn Url → Answer
  | .ok u => f u
  | .error e => .threw e

def exec (c : UrlClassifier Q) : Op → Answer × UrlClassifier Q
  | .push u => (.pushed, c.push u)
  | .peek n => (answer .peeked (c.peek n).1, (c.peek n).2)
  | .pop n => (answer .popped (c.pop n).1, (c.pop n).2)

/-- The classifier as a machine; it goes on after an exception. -/
def machine (Q : PriorityQueue hostKey) : Machine (UrlClassifier Q) Op Answer where
  exec c op := some (c.exec op)

/-! ### The steps -/

/-- The URLs with the host of the top of `top_q`, and what is left without them. -/
structure Drained (c : UrlClassifier Q) (host : Str) (us : List Url) (q : Q.Carrier) : Prop where
  elems : Q.elems c.topQ = (us : Multiset Url) + Q.elems q
  host_eq : ∀ u ∈ us, u.host = host
  complete : ∀ u ∈ Q.elems q, u.host ≠ host

/-- What a call does, case by case. -/
inductive Step (c : UrlClassifier Q) : Op → Answer → UrlClassifier Q → Prop
  | known {u i} : c.table.findHost u.host = some i →
      Step c (.push u) .pushed (c.setDeque i.n (c.deques i.n ++ [u]))
  | claim {u n} : c.table.findHost u.host = none → n ∈ c.table.ns → c.deques n = [] →
      Step c (.push u) .pushed
        { c.setDeque n [u] with table := c.table.replace { host := u.host, n := n } }
  | park {u} : c.table.findHost u.host = none → (∀ n ∈ c.table.ns, c.deques n ≠ []) →
      Step c (.push u) .pushed { c with topQ := Q.push c.topQ u }
  | look {n u us} : n ∈ c.table.ns → c.deques n = u :: us → Step c (.peek n) (.peeked u) c
  | refill {n u us q} : n ∈ c.table.ns → c.deques n = [] → Drained c u.host (u :: us) q →
      Step c (.peek n) (.peeked u)
        { topQ := q
          table := c.table.replace { host := u.host, n := n }
          deques := Function.update c.deques n (u :: us) }
  | create {n u us q} : n ∉ c.table.ns → Drained c u.host (u :: us) q →
      Step c (.peek n) (.peeked u)
        { topQ := q
          table := c.table.insert { host := u.host, n := n }
          deques := Function.update c.deques n (u :: us) }
  | take {n u us} : n ∈ c.table.ns → c.deques n = u :: us →
      Step c (.pop n) (.popped u) (c.setDeque n us)
  | threw {op e} : Step c op (.threw e) c

variable {c : UrlClassifier Q}

lemma step_push (c : UrlClassifier Q) (u : Url) : Step c (.push u) .pushed (c.push u) := by
  rw [push]
  cases hf : c.table.findHost u.host with
  | some i => exact .known hf
  | none =>
      cases hj : c.table.seq.find? fun j => (c.deques j.n).isEmpty with
      | some j =>
          have hnil : c.deques j.n = [] := by simpa using List.find?_some hj
          simp only [hnil, List.nil_append]
          exact .claim hf (Table.n_mem_ns (List.mem_of_find?_eq_some hj)) hnil
      | none =>
          refine .park hf ?_
          intro n hn
          obtain ⟨e, he, rfl⟩ := List.mem_map.1 hn
          simpa using List.find?_eq_none.1 hj e he

lemma step_pop (c : UrlClassifier Q) (n : ℕ) :
    Step c (.pop n) (answer .popped (c.pop n).1) (c.pop n).2 := by
  rw [pop]
  cases hf : c.table.findN n with
  | none => exact .threw
  | some i =>
      obtain ⟨hi, rfl⟩ := Table.mem_of_findN hf
      simp only
      cases hd : c.deques i.n with
      | nil =>
          by_cases htop : c.emptyTop = true
          · simp only [htop, if_true]
            exact .threw
          · simp only [htop]
            exact .threw
      | cons u us => exact .take (Table.n_mem_ns hi) hd

/-- The loop of `peek` takes all URLs of the host of the top, and at least one. -/
lemma exists_drained {v : Url} (h : Q.top? c.topQ = some v) :
    ∃ u us q, Q.popWhile (fun w => w.host == v.host) (Q.size c.topQ) c.topQ = (q, u :: us) ∧
      u.host = v.host ∧ Drained c v.host (u :: us) q := by
  obtain ⟨⟨q, us⟩, hr⟩ : ∃ r, Q.popWhile (fun w => w.host == v.host) (Q.size c.topQ) c.topQ = r :=
    ⟨_, rfl⟩
  obtain ⟨hsum, hall⟩ :=
    PriorityQueue.popWhile_elems (Q := Q) (p := fun w => w.host == v.host) (Q.size c.topQ) c.topQ
  have hcompl := PriorityQueue.popWhile_complete (Q := Q) (p := fun w => w.host == v.host) h
    (fun b => by rw [beq_iff_eq, hostKey_eq_iff])
  rw [hr] at hsum hall hcompl
  have hd : Drained c v.host us q :=
    { elems := hsum
      host_eq := fun u hu => beq_iff_eq.1 (hall u hu)
      complete := fun u hu he => hcompl u hu (hostKey_eq_iff.2 he) }
  cases us with
  | nil =>
      -- the top itself is taken
      refine absurd rfl (hd.complete v ?_)
      have hv := Q.top_mem h
      rw [hd.elems] at hv
      simpa using hv
  | cons u us => exact ⟨u, us, q, hr, hd.host_eq u (by simp), hd⟩

lemma step_peek (c : UrlClassifier Q) (n : ℕ) :
    Step c (.peek n) (answer .peeked (c.peek n).1) (c.peek n).2 := by
  rw [peek]
  cases hf : c.table.findN n with
  | none =>
      cases htop : Q.top? c.topQ with
      | none => exact .threw
      | some v =>
          -- the element gets the host of the top, and the front has that host too
          obtain ⟨u, us, q, hloop, hu, hd⟩ := exists_drained htop
          rw [← hu] at hd hloop
          simp only [fill, setDeque, front, ← hu, hloop, Function.update_self, List.nil_append,
            Function.update_idem]
          exact .create (Table.notMem_of_findN hf) hd
  | some i =>
      obtain ⟨hi, rfl⟩ := Table.mem_of_findN hf
      cases hq : c.deques i.n with
      | cons u us =>
          simp only [hq]
          exact .look (Table.n_mem_ns hi) hq
      | nil =>
          cases htop : Q.top? c.topQ with
          | none =>
              simp only [hq]
              exact .threw
          | some v =>
              obtain ⟨u, us, q, hloop, hu, hd⟩ := exists_drained htop
              rw [← hu] at hd hloop
              simp only [fill, setDeque, front, hq, ← hu, hloop, Function.update_self,
                List.nil_append]
              exact .refill (Table.n_mem_ns hi) hq hd

/-- Every call is one of the steps. -/
theorem step_exec (c : UrlClassifier Q) (op : Op) : Step c op (c.exec op).1 (c.exec op).2 := by
  cases op with
  | push u => exact step_push c u
  | peek n => exact step_peek c n
  | pop n => exact step_pop c n

/-- `peek` of a queue that holds something looks at its front. -/
lemma peek_of_cons {n : ℕ} {u : Url} {us : List Url} (hn : n ∈ c.table.ns)
    (hd : c.deques n = u :: us) : c.peek n = (.ok u, c) := by
  obtain ⟨i, hf⟩ := Table.exists_findN hn
  obtain ⟨-, rfl⟩ := Table.mem_of_findN hf
  simp only [peek, hf, hd]

/-- `peek` of a number whose queue is empty, or not there, gives it the URLs of the host of the
top. -/
lemma exists_refill {n : ℕ} (hn : n ∈ c.table.ns → c.deques n = []) (htop : c.emptyTop = false) :
    ∃ u us c', c.peek n = (.ok u, c') ∧ Drained c u.host (u :: us) c'.topQ ∧
      c'.deques n = u :: us ∧ { host := u.host, n := n } ∈ c'.table.seq := by
  obtain ⟨v, hv⟩ : ∃ v, Q.top? c.topQ = some v := by
    rw [emptyTop, Option.isNone_eq_false_iff] at htop
    exact Option.isSome_iff_exists.1 htop
  obtain ⟨u, us, q, hloop, hu, hd⟩ := exists_drained hv
  rw [← hu] at hd hloop
  refine ⟨u, us, (c.peek n).2, ?_⟩
  cases hf : c.table.findN n with
  | none =>
      have hnew := Table.notMem_of_findN hf
      simp only [peek, hf, hv, fill, setDeque, front, ← hu, hloop, Function.update_self,
        List.nil_append]
      exact ⟨trivial, hd, trivial,
        (Table.mem_insert (e := { host := u.host, n := n }) hnew).2 (Or.inr rfl)⟩
  | some i =>
      obtain ⟨hi, rfl⟩ := Table.mem_of_findN hf
      have hmem := Table.n_mem_ns hi
      simp only [peek, hf, hv, hn hmem, fill, setDeque, front, ← hu, hloop, Function.update_self,
        List.nil_append]
      exact ⟨trivial, hd, trivial,
        (Table.mem_replace (e := { host := u.host, n := i.n }) hmem).2 (Or.inl rfl)⟩

/-- `peek` succeeds when the queue or `top_q` holds something. -/
lemma exists_peek {n : ℕ} (hn : n ∈ c.table.ns) (h : c.emptyTop = true → c.deques n ≠ []) :
    ∃ u c', c.peek n = (.ok u, c') := by
  cases hd : c.deques n with
  | cons u us => exact ⟨u, c, peek_of_cons hn hd⟩
  | nil =>
      have htop : c.emptyTop = false := Bool.eq_false_iff.2 fun ht => h ht hd
      obtain ⟨u, us, c', hpeek, -⟩ := exists_refill (fun _ => hd) htop
      exact ⟨u, c', hpeek⟩

/-- `pop` of a queue that holds something takes its front. -/
lemma pop_of_cons {n : ℕ} {u : Url} {us : List Url} (hn : n ∈ c.table.ns)
    (hd : c.deques n = u :: us) : c.pop n = (.ok u, c.setDeque n us) := by
  obtain ⟨i, hf⟩ := Table.exists_findN hn
  obtain ⟨-, rfl⟩ := Table.mem_of_findN hf
  simp only [pop, hf, hd]

lemma emptyAt_of_mem {n : ℕ} (hn : n ∈ c.table.ns) :
    c.emptyAt n = .ok (c.deques n).isEmpty := by
  obtain ⟨i, hf⟩ := Table.exists_findN hn
  obtain ⟨-, rfl⟩ := Table.mem_of_findN hf
  simp only [emptyAt, hf]

lemma step_of_machine {op : Op} {a : Answer} {c' : UrlClassifier Q}
    (h : (machine Q).exec c op = some (a, c')) : Step c op a c' := by
  have heq : c.exec op = (a, c') := Option.some.inj h
  have hs := step_exec c op
  rw [heq] at hs
  exact hs

end UrlClassifier

end Mycelium
