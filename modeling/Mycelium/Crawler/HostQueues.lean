import Mycelium.Crawler.UrlClassifier

/-!
# Runs of the classifier

No URL is lost or made up between `push` and `pop`, and every child queue holds the URLs of one
host.  That no host has two queues, on which the crawler relies for one connection per host, needs
more than the code gives: `push` looks for the host in the table but not in `top_q`.
-/

namespace Mycelium

open Lib

namespace UrlClassifier

variable {Q : PriorityQueue hostKey} {c c' : UrlClassifier Q} {op : Op} {a : Answer}

/-! ### What the classifier holds -/

/-- The URLs in the deques with the numbers `ns`. -/
def held (deques : ℕ → List Url) (ns : List ℕ) : Multiset Url :=
  (ns.map fun n => (deques n : Multiset Url)).sum

/-- The URLs in `top_q` and the child queues. -/
def contents (c : UrlClassifier Q) : Multiset Url := Q.elems c.topQ + held c.deques c.table.ns

lemma held_cons (d : ℕ → List Url) (n : ℕ) (ns : List ℕ) :
    held d (n :: ns) = (d n : Multiset Url) + held d ns := by
  rw [held, List.map_cons, List.sum_cons, held]

lemma held_update_of_notMem {d : ℕ → List Url} {ns : List ℕ} {n : ℕ} (us : List Url)
    (hn : n ∉ ns) : held (Function.update d n us) ns = held d ns := by
  rw [held, held]
  refine congrArg List.sum (List.map_congr_left fun m hm => ?_)
  rw [Function.update_of_ne]
  exact fun h => hn (h ▸ hm)

lemma held_update {d : ℕ → List Url} {ns : List ℕ} {n : ℕ} (us : List Url) (hnodup : ns.Nodup)
    (hn : n ∈ ns) :
    held (Function.update d n us) ns + (d n : Multiset Url) = held d ns + (us : Multiset Url) := by
  induction ns with
  | nil => exact absurd hn (by simp)
  | cons m ns ih =>
      obtain ⟨hm, hns⟩ := List.nodup_cons.1 hnodup
      rw [held_cons, held_cons]
      by_cases hmn : m = n
      · subst hmn
        rw [held_update_of_notMem us hm, Function.update_self]
        abel
      · have hrest := ih hns ((List.mem_cons.1 hn).resolve_left (Ne.symm hmn))
        rw [Function.update_of_ne hmn, add_assoc, hrest, add_assoc]

lemma card_held (d : ℕ → List Url) (ns : List ℕ) :
    (held d ns).card = (ns.map fun n => (d n).length).sum := by
  induction ns with
  | nil => rfl
  | cons n ns ih => rw [held_cons, Multiset.card_add, ih, List.map_cons, List.sum_cons]; rfl

/-- `size` counts the URLs that are held. -/
theorem size_eq (c : UrlClassifier Q) : c.size = c.contents.card := by
  have hfold : ∀ (l : List TableElmt) (k : ℕ),
      l.foldl (fun sum e => sum + (c.deques e.n).length) k
        = k + ((l.map TableElmt.n).map fun n => (c.deques n).length).sum := by
    intro l
    induction l with
    | nil => simp
    | cons e l ih =>
        intro k
        rw [List.foldl_cons, ih, List.map_cons, List.map_cons, List.sum_cons, add_assoc]
  rw [size, hfold, contents, Multiset.card_add, card_held, Q.size_eq, zero_add, add_comm]
  rfl

/-- `empty` is true when nothing is held. -/
theorem empty_iff (c : UrlClassifier Q) : c.empty = true ↔ c.size = 0 := by
  rw [size_eq, contents, Multiset.card_add, Nat.add_eq_zero_iff, Multiset.card_eq_zero,
    ← Q.top?_eq_none_iff, card_held, List.sum_eq_zero_iff, empty, emptyTop, Bool.and_eq_true,
    Option.isNone_iff_eq_none]
  simp [Table.ns]

lemma contents_setDeque {n : ℕ} (us : List Url) (hn : n ∈ c.table.ns) :
    (c.setDeque n us).contents + (c.deques n : Multiset Url)
      = c.contents + (us : Multiset Url) := by
  have h := held_update us c.table.nodup_ns hn (d := c.deques)
  rw [contents, contents, add_assoc, add_assoc, ← h]
  rfl

/-! ### Conservation -/

/-- What a call brings in. -/
def pushedBy : Op × Answer → Multiset Url
  | (.push u, .pushed) => {u}
  | _ => 0

/-- What a call takes out. -/
def poppedBy : Op × Answer → Multiset Url
  | (.pop _, .popped u) => {u}
  | _ => 0

/-- A call changes the contents by what it brings in and takes out. -/
lemma step_contents (h : Step c op a c') :
    c.contents + pushedBy (op, a) = poppedBy (op, a) + c'.contents := by
  cases h with
  | @known u i hf =>
      -- the balance of one queue, cancelled on both sides
      have hi := Table.n_mem_ns (Table.mem_of_findHost hf).1
      have h := contents_setDeque (c := c) (c.deques i.n ++ [u]) hi
      rw [← Multiset.coe_add, ← add_assoc, add_right_comm] at h
      simpa [pushedBy, poppedBy] using (add_right_cancel h).symm
  | @claim u n _ hn hnil =>
      have h := held_update [u] c.table.nodup_ns hn (d := c.deques)
      rw [hnil, Multiset.coe_nil, add_zero, Multiset.coe_singleton] at h
      simp only [contents, pushedBy, poppedBy, Table.ns_replace, deques_setDeque, topQ_setDeque,
        zero_add]
      rw [h, add_assoc]
  | @park u =>
      simp only [contents, pushedBy, poppedBy, Q.elems_push, zero_add, ← Multiset.singleton_add]
      abel
  | look => simp [pushedBy, poppedBy]
  | @refill n u us q hn hnil hd =>
      have h := held_update (u :: us) c.table.nodup_ns hn (d := c.deques)
      rw [hnil, Multiset.coe_nil, add_zero] at h
      simp only [contents, pushedBy, poppedBy, Table.ns_replace, hd.elems, zero_add, add_zero]
      rw [h]
      abel
  | @create n u us q hn hd =>
      -- the new number is the last one, and was in no sum before
      simp only [contents, pushedBy, poppedBy, Table.ns_insert (e := { host := u.host, n := n }) hn,
        hd.elems, zero_add, add_zero, held, List.map_append, List.sum_append, List.map_singleton,
        List.sum_singleton, Function.update_self]
      rw [← held, ← held, held_update_of_notMem _ hn]
      abel
  | @take n u us hn hd =>
      have h := contents_setDeque (c := c) us hn
      rw [hd, ← Multiset.cons_coe, ← Multiset.singleton_add, ← add_assoc] at h
      simpa [pushedBy, poppedBy, add_comm] using (add_right_cancel h).symm
  | threw => simp [pushedBy, poppedBy]

/-- The URLs that the calls of a run brought in. -/
def urlsPushed (l : List (Op × Answer)) : Multiset Url := (l.map pushedBy).sum

/-- The URLs that the calls of a run took out. -/
def urlsPopped (l : List (Op × Answer)) : Multiset Url := (l.map poppedBy).sum

lemma contents_new (N : ℕ) : (new Q N).contents = 0 := by
  have hheld : ∀ ns : List ℕ, held (fun _ => []) ns = 0 := by
    intro ns
    simp [held]
  rw [contents, new, Q.elems_empty, hheld, add_zero]

lemma pop_error {n : ℕ} {e : Exn} (h : (c.pop n).1 = .error e) : (c.pop n).2 = c := by
  have hs := step_pop c n
  rw [h] at hs
  generalize (c.pop n).2 = c' at hs
  cases hs with
  | threw => rfl

/-- Conservation: what was pushed has been popped or is held, `size` and `empty` tell how much is
held, and a `pop` that throws changes nothing. -/
theorem pushed_eq_popped_add_contents {N : ℕ} {l : List (Op × Answer)}
    (h : (machine Q).Run Machine.Free (new Q N) l c) :
    urlsPushed l = urlsPopped l + c.contents ∧
      c.size + (urlsPopped l).card = (urlsPushed l).card ∧
      (c.empty = true ↔ c.size = 0) ∧
      ∀ n e, (c.pop n).1 = .error e → (c.pop n).2 = c := by
  have hbal := h.conservation contents pushedBy poppedBy
    fun s i o t _ hexec => step_contents (step_of_machine hexec)
  rw [contents_new, zero_add] at hbal
  refine ⟨hbal, ?_, empty_iff c, fun n e he => pop_error he⟩
  rw [urlsPushed, hbal, Multiset.card_add, size_eq, add_comm]
  rfl

/-- Two URLs of a host and one of another in one child queue: the second host waits in `top_q`
until the queue is empty, and the last `pop` throws. -/
theorem pushed_eq_popped_add_contents_one :
    ∃ (l : List (Op × Answer)) (c : UrlClassifier (PriorityQueue.ofList hostKey)),
      (machine _).Run Machine.Free (new _ 1) l c ∧ l.length = 8 ∧ c.size = 1 ∧
        urlsPushed l = urlsPopped l + c.contents := by
  let a : Url := { host := lit "a" }
  let b : Url := { host := lit "b" }
  have hrun : (machine (PriorityQueue.ofList hostKey)).Run Machine.Free (new _ 1) _ _ :=
    .cons (i := .push a) trivial rfl <| .cons (i := .push b) trivial rfl <|
    .cons (i := .push a) trivial rfl <| .cons (i := .pop 0) trivial rfl <|
    .cons (i := .pop 0) trivial rfl <| .cons (i := .pop 0) trivial rfl <|
    .cons (i := .peek 0) trivial rfl <| .cons (i := .pop 1) trivial rfl <| .nil _
  exact ⟨_, _, hrun, rfl, by decide, (pushed_eq_popped_add_contents hrun).1⟩

/-! ### The front of a queue -/

/-- Only `pop` takes the front of a queue away. -/
lemma step_front (h : Step c op a c') {m : ℕ} {x : Url} (hm : m ∈ c.table.ns)
    (hop : op ≠ .pop m) (hx : (c.deques m).head? = some x) : (c'.deques m).head? = some x := by
  have hne : c.deques m ≠ [] := by
    rintro hnil
    rw [hnil] at hx
    exact absurd hx (by simp)
  have hother : ∀ {n : ℕ} {us : List Url}, m ≠ n →
      (Function.update c.deques n us m).head? = some x := by
    intro n us hmn
    rw [Function.update_of_ne hmn]
    exact hx
  cases h with
  | @known u i hf =>
      by_cases hmi : m = i.n
      · subst hmi
        rw [deques_setDeque, Function.update_self, List.head?_append, hx]
        rfl
      · exact hother hmi
  | claim _ _ hnil => exact hother fun hmn => hne (hmn ▸ hnil)
  | park => exact hx
  | look => exact hx
  | refill _ hnil _ => exact hother fun hmn => hne (hmn ▸ hnil)
  | create hn _ => exact hother fun hmn => hn (hmn ▸ hm)
  | take => exact hother fun hmn => hop (by rw [hmn])
  | threw => exact hx

/-- `peek` gives the front. -/
lemma front_of_peek {n : ℕ} {u : Url} (h : c.peek n = (.ok u, c')) :
    (c'.deques n).head? = some u := by
  have hs := step_peek c n
  rw [h] at hs
  cases hs with
  | look _ hd => rw [hd]; rfl
  | refill => simp
  | create => simp

/-! ### One host in a queue -/

/-- Every URL of a child queue has the host of its table element. -/
def Homogeneous (c : UrlClassifier Q) : Prop :=
  ∀ e ∈ c.table.seq, ∀ u ∈ c.deques e.n, u.host = e.host

lemma homogeneous_new (N : ℕ) : (new Q N).Homogeneous :=
  fun _ _ _ hu => absurd hu (by simp [new])

/-- Giving the queue `n` to a host, with URLs of that host. -/
lemma Homogeneous.assign {h : Str} {n : ℕ} {us : List Url} {q : Q.Carrier} {t : Table}
    (hc : c.Homogeneous) (ht : Table.Assigned c.table h n t) (hus : ∀ u ∈ us, u.host = h) :
    Homogeneous (Q := Q) { topQ := q, table := t, deques := Function.update c.deques n us } := by
  intro e he u hu
  rcases ht.mem e he with rfl | ⟨hold, hn⟩
  · simp only [Function.update_self] at hu
    exact hus u hu
  · simp only [Function.update_of_ne hn] at hu
    exact hc e hold u hu

/-- Changing a queue without giving it to another host. -/
lemma Homogeneous.setDeque {i : TableElmt} {us : List Url} (hc : c.Homogeneous)
    (hi : i ∈ c.table.seq) (hus : ∀ u ∈ us, u ∈ c.deques i.n ∨ u.host = i.host) :
    (c.setDeque i.n us).Homogeneous := by
  intro e he u hu
  by_cases hn : e.n = i.n
  · have hei : e = i := Table.eq_of_n_eq he hi hn
    subst hei
    rw [deques_setDeque, Function.update_self] at hu
    exact (hus u hu).elim (hc e he u) id
  · rw [deques_setDeque, Function.update_of_ne hn] at hu
    exact hc e he u hu

lemma step_homogeneous (h : Step c op a c') (hc : c.Homogeneous) : c'.Homogeneous := by
  cases h with
  | known hf =>
      obtain ⟨hi, hhost⟩ := Table.mem_of_findHost hf
      refine hc.setDeque hi fun v hv => ?_
      rcases List.mem_append.1 hv with hv | hv
      · exact Or.inl hv
      · exact Or.inr (by rw [List.mem_singleton.1 hv, hhost])
  | claim _ hn _ => exact hc.assign (Table.assigned_replace hn) (by simp)
  | park => exact hc
  | look => exact hc
  | refill hn _ hd => exact hc.assign (Table.assigned_replace hn) hd.host_eq
  | create hn hd => exact hc.assign (Table.assigned_insert hn) hd.host_eq
  | take hn hd =>
      obtain ⟨i, hi, rfl⟩ := List.mem_map.1 hn
      exact hc.setDeque hi fun v hv => Or.inl (by rw [hd]; exact List.mem_cons_of_mem _ hv)
  | threw => exact hc

/-- In every run every child queue holds the URLs of one host. -/
theorem homogeneous_of_run {N : ℕ} {G : UrlClassifier Q → Op → Prop} {l : List (Op × Answer)}
    (h : (machine Q).Run G (new Q N) l c) : c.Homogeneous :=
  h.invariant (fun _ _ _ _ hc _ hexec => step_homogeneous (step_of_machine hexec) hc)
    (homogeneous_new N)

/-- In every run the URLs of a child queue have the host of its table element, and each number is in
the table once.  A `peek` that finds its queue empty, or none, and something in `top_q` refills the
queue: it gives its front, and no URL with its host is left in `top_q`. -/
theorem homogeneous_and_refill_complete {N : ℕ} {l : List (Op × Answer)}
    (h : (machine Q).Run Machine.Free (new Q N) l c) :
    c.Homogeneous ∧ c.table.ns.Nodup ∧
      ∀ n, (n ∈ c.table.ns → c.deques n = []) → c.emptyTop = false →
        ∃ u c', c.peek n = (.ok u, c') ∧ (c'.deques n).head? = some u ∧
          ∃ e ∈ c'.table.seq, e.n = n ∧ e.host = u.host ∧
            ∀ v ∈ Q.elems c'.topQ, v.host ≠ e.host := by
  refine ⟨homogeneous_of_run h, c.table.nodup_ns, fun n hn htop => ?_⟩
  obtain ⟨u, us, c', hpeek, hd, hdeque, hmem⟩ := exists_refill hn htop
  exact ⟨u, c', hpeek, front_of_peek hpeek, _, hmem, rfl, rfl, hd.complete⟩

/-- Three URLs of the host `c` wait for the only queue; `peek` takes them all. -/
theorem homogeneous_and_refill_complete_one :
    ∃ (l : List (Op × Answer)) (c : UrlClassifier (PriorityQueue.ofList hostKey)),
      (machine _).Run Machine.Free (new _ 1) l c ∧ c.emptyTop = false ∧
        ∃ u c', c.peek 0 = (.ok u, c') ∧ (c'.deques 0).head? = some u := by
  let a : Url := { host := lit "a" }
  let d : Url := { host := lit "c" }
  have hrun : (machine (PriorityQueue.ofList hostKey)).Run Machine.Free (new _ 1) _ _ :=
    .cons (i := .push a) trivial rfl <| .cons (i := .push d) trivial rfl <|
    .cons (i := .push d) trivial rfl <| .cons (i := .pop 0) trivial rfl <| .nil _
  obtain ⟨-, -, hrefill⟩ := homogeneous_and_refill_complete hrun
  obtain ⟨u, c', hpeek, hhead, -⟩ := hrefill 0 (fun _ => rfl) (by decide)
  exact ⟨_, _, hrun, by decide, u, c', hpeek, hhead⟩

/-! ### One queue for a host -/

/-- No two child queues hold URLs with the same host. -/
def OneQueuePerHost (c : UrlClassifier Q) : Prop :=
  ∀ e ∈ c.table.seq, ∀ f ∈ c.table.seq, e.n ≠ f.n →
    ∀ u ∈ c.deques e.n, ∀ v ∈ c.deques f.n, u.host ≠ v.host

instance (c : UrlClassifier Q) : Decidable c.OneQueuePerHost :=
  inferInstanceAs (Decidable (∀ e ∈ c.table.seq, ∀ f ∈ c.table.seq, e.n ≠ f.n →
    ∀ u ∈ c.deques e.n, ∀ v ∈ c.deques f.n, u.host ≠ v.host))

/-- The condition on a call: a URL whose host has no table element is not given an empty child queue
while `top_q` holds URLs with its host. -/
def NotParked (c : UrlClassifier Q) : Op → Prop
  | .push u => c.table.findHost u.host = none → (∃ n ∈ c.table.ns, c.deques n = []) →
      ∀ v ∈ Q.elems c.topQ, v.host ≠ u.host
  | _ => True

/-- A host that has a table element is not in `top_q`, and the search by host finds its queue. -/
structure Grouped (c : UrlClassifier Q) : Prop where
  homogeneous : c.Homogeneous
  parked : ∀ e ∈ c.table.seq, ∀ u ∈ Q.elems c.topQ, u.host ≠ e.host
  found : ∀ e ∈ c.table.seq, c.deques e.n ≠ [] → c.table.findHost e.host = some e

lemma Grouped.oneQueuePerHost (h : c.Grouped) : c.OneQueuePerHost := by
  intro e he f hf hn u hu v hv huv
  -- both elements would be the one that the search finds
  have hhost : e.host = f.host := by
    rw [← h.homogeneous e he u hu, ← h.homogeneous f hf v hv, huv]
  have hfe := h.found e he (List.ne_nil_of_mem hu)
  have hff := h.found f hf (List.ne_nil_of_mem hv)
  rw [hhost, hff, Option.some.injEq] at hfe
  exact hn (congrArg TableElmt.n hfe.symm)

lemma grouped_new (N : ℕ) : (new Q N).Grouped where
  homogeneous := homogeneous_new N
  parked _ _ _ hu := absurd hu (by simp [new, Q.elems_empty])
  found _ _ hne := absurd rfl hne

/-- A host without a table element can be given a queue once it is not in `top_q` any more. -/
lemma Grouped.assign {h : Str} {n : ℕ} {us : List Url} {q : Q.Carrier} {t : Table}
    (hc : c.Grouped) (ht : Table.Assigned c.table h n t) (hus : ∀ u ∈ us, u.host = h)
    (hnone : c.table.findHost h = none) (hq : ∀ u ∈ Q.elems q, u ∈ Q.elems c.topQ ∧ u.host ≠ h) :
    Grouped (Q := Q) { topQ := q, table := t, deques := Function.update c.deques n us } where
  homogeneous := hc.homogeneous.assign ht hus
  parked e he u hu := by
    rcases ht.mem e he with rfl | ⟨hold, -⟩
    · exact (hq u hu).2
    · exact hc.parked e hold u (hq u hu).1
  found e he hne := by
    rcases ht.mem e he with rfl | ⟨hold, hn⟩
    · exact ht.find_self hnone
    · simp only [Function.update_of_ne hn] at hne
      have hh : h ≠ e.host := (Table.findHost_eq_none_iff.1 hnone e hold).symm
      exact ht.find_of_ne e.host e hh (hc.found e hold hne) hn

lemma Drained.mem_topQ {h : Str} {us : List Url} {q : Q.Carrier} (hd : Drained c h us q) :
    (∀ u ∈ us, u ∈ Q.elems c.topQ) ∧ ∀ u ∈ Q.elems q, u ∈ Q.elems c.topQ := by
  rw [hd.elems]
  exact ⟨fun u hu => Multiset.mem_add.2 (Or.inl hu), fun u hu => Multiset.mem_add.2 (Or.inr hu)⟩

/-- A refill of the queue `n` from `top_q`. -/
lemma Grouped.refill {n : ℕ} {u : Url} {us : List Url} {q : Q.Carrier} {t : Table}
    (hc : c.Grouped) (ht : Table.Assigned c.table u.host n t) (hd : Drained c u.host (u :: us) q) :
    Grouped (Q := Q)
      { topQ := q, table := t, deques := Function.update c.deques n (u :: us) } := by
  obtain ⟨hus, hq⟩ := hd.mem_topQ
  refine hc.assign ht hd.host_eq ?_ fun v hv => ⟨hq v hv, hd.complete v hv⟩
  exact Table.findHost_eq_none_iff.2 fun e he => (hc.parked e he u (hus u (by simp))).symm

lemma step_grouped (h : Step c op a c') (hg : c.NotParked op) (hc : c.Grouped) : c'.Grouped := by
  have hhom := step_homogeneous h hc.homogeneous
  cases h with
  | @known u i hf =>
      obtain ⟨hi, hhost⟩ := Table.mem_of_findHost hf
      refine ⟨hhom, hc.parked, fun e he hne => ?_⟩
      by_cases hn : e.n = i.n
      · rw [Table.eq_of_n_eq he hi hn, hhost]
        exact hf
      · rw [deques_setDeque, Function.update_of_ne hn] at hne
        exact hc.found e he hne
  | claim hf hn hnil =>
      -- the only case that needs the condition
      have hfree := hg hf ⟨_, hn, hnil⟩
      exact hc.assign (Table.assigned_replace hn) (by simp) hf fun v hv => ⟨hv, hfree v hv⟩
  | @park u hf =>
      refine ⟨hhom, fun e he v hv => ?_, hc.found⟩
      rcases Multiset.mem_cons.1 (Q.elems_push c.topQ u ▸ hv) with rfl | hv
      · exact (Table.findHost_eq_none_iff.1 hf e he).symm
      · exact hc.parked e he v hv
  | look => exact hc
  | refill hn _ hd => exact hc.refill (Table.assigned_replace hn) hd
  | create hn hd => exact hc.refill (Table.assigned_insert hn) hd
  | @take n u us hn hd =>
      refine ⟨hhom, hc.parked, fun e he hne => ?_⟩
      -- a queue that is not empty after `pop` was not empty before
      by_cases hen : e.n = n
      · exact hc.found e he (by rw [hen, hd]; simp)
      · rw [deques_setDeque, Function.update_of_ne hen] at hne
        exact hc.found e he hne
  | threw => exact hc

/-- In every run whose calls meet the condition every host has one queue. -/
theorem oneQueuePerHost_of_notParked {N : ℕ} {l : List (Op × Answer)}
    (h : (machine Q).Run NotParked (new Q N) l c) : c.OneQueuePerHost := by
  have hg : c.Grouped :=
    h.invariant (fun _ _ _ _ hc hg hexec => step_grouped (step_of_machine hexec) hg hc)
      (grouped_new N)
  exact hg.oneQueuePerHost

/-- Three hosts for two queues: the third waits in `top_q` and is taken over by a `peek`. -/
theorem oneQueuePerHost_of_notParked_three :
    ∃ (l : List (Op × Answer)) (c : UrlClassifier (PriorityQueue.ofList hostKey)),
      (machine _).Run NotParked (new _ 2) l c ∧ l.length = 5 ∧ c.size = 2 ∧
        c.OneQueuePerHost := by
  let a : Url := { host := lit "a" }
  let b : Url := { host := lit "b" }
  let d : Url := { host := lit "c" }
  have hrun : (machine (PriorityQueue.ofList hostKey)).Run NotParked (new _ 2) _ _ :=
    .cons (i := .push a) (by rintro - - v hv; exact absurd hv (Multiset.notMem_zero v)) rfl <|
    .cons (i := .push b) (by rintro - - v hv; exact absurd hv (Multiset.notMem_zero v)) rfl <|
    .cons (i := .push d) (by rintro - - v hv; exact absurd hv (Multiset.notMem_zero v)) rfl <|
    .cons (i := .pop 0) (by trivial) rfl <| .cons (i := .peek 0) (by trivial) rfl <| .nil _
  exact ⟨_, _, hrun, rfl, by decide, oneQueuePerHost_of_notParked hrun⟩

/-- The queue 0 is emptied while the host `c` waits in `top_q`: the next URL of `c` is given the
queue 0, and `peek(1)` takes the one that waits to the queue 1. -/
theorem not_oneQueuePerHost_parked :
    ∃ (l : List (Op × Answer)) (c : UrlClassifier (PriorityQueue.ofList hostKey)),
      (machine _).Run Machine.Free (new _ 2) l c ∧ ¬ c.OneQueuePerHost := by
  let a : Url := { host := lit "a" }
  let b : Url := { host := lit "b" }
  let d : Url := { host := lit "c" }
  have hrun : (machine (PriorityQueue.ofList hostKey)).Run Machine.Free (new _ 2) _ _ :=
    .cons (i := .push a) trivial rfl <| .cons (i := .push b) trivial rfl <|
    .cons (i := .push d) trivial rfl <| .cons (i := .pop 0) trivial rfl <|
    .cons (i := .push d) trivial rfl <| .cons (i := .pop 1) trivial rfl <|
    .cons (i := .peek 1) trivial rfl <| .nil _
  exact ⟨_, _, hrun, by decide⟩

end UrlClassifier

end Mycelium
