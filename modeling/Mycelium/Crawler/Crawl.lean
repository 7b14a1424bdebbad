import Mycelium.Crawler.EasyHandle
import Mycelium.Crawler.HostQueues

/-!
# The crawl

The crawler as a machine: lines with URLs come in, the scheduler puts idle handles to work, and
transfers are completed, in any order.  The URL of a transfer is looked at when it is started and
popped when it has been completed, by two callbacks; that both mean the same URL is the invariant of
every run.
-/

namespace Mycelium

open Lib Bson

/-- `class GlobalInfo`: the handles by their id, and the transfers that have been added to
`multi`. -/
structure GlobalInfo (Q : PriorityQueue hostKey) extends Shared Q where
  handles : ℕ → EasyHandle
  multi : ℕ → Option Transfer

namespace GlobalInfo

variable {Q : PriorityQueue hostKey}

/-- `GlobalInfo(parallel, port)` on a database. -/
def new (Q : PriorityQueue hostKey) (db : Collection) (parallel : ℕ) : GlobalInfo Q where
  classifier := UrlClassifier.new Q parallel
  db := db
  handles := fun _ => {}
  multi := fun _ => none

/-- `curl_multi_add_handle` and `mcode_or_die`: a handle cannot be added twice. -/
def add (g : GlobalInfo Q) (id : ℕ) : Option Transfer → Except Thrown (GlobalInfo Q)
  | none => .ok g
  | some t =>
      if (g.multi id).isSome then
        .error { call := .multi, exn := .logicError (lit "curl_multi_add_handle") }
      else .ok { g with multi := Function.update g.multi id (some t) }

/-- The body of the loop of `GlobalInfo::reschedule`. -/
def rescheduleIdle (cfg : Config) (loads : ℕ → Url → Load) (g : GlobalInfo Q) (id : ℕ) :
    Except Thrown (GlobalInfo Q) :=
  if (g.handles id).state = .idle then do
    let (h, c, o) ← (g.handles id).reschedule cfg id (loads id) g.classifier
    { g with classifier := c, handles := Function.update g.handles id h }.add id o
  else .ok g

/-- `GlobalInfo::reschedule`. -/
def reschedule (cfg : Config) (parallel : ℕ) (loads : ℕ → Url → Load) (g : GlobalInfo Q) :
    Except Thrown (GlobalInfo Q) :=
  (List.range parallel).foldlM (rescheduleIdle cfg loads) g

/-- The body of the loop of `GlobalInfo::check_run_count`, for the transfer of the handle `id`. -/
def checkRunCount (cfg : Config) (id : ℕ) (r : Completion) (g : GlobalInfo Q) :
    Except Thrown (List Event × GlobalInfo Q) :=
  match g.multi id with
  | none => .error { call := .multi, exn := .logicError (lit "curl_multi_info_read") }
  | some _ => do
      let g := { g with multi := Function.update g.multi id none }
      let (h, log, s, o) ← (g.handles id).done cfg id r g.toShared
      let g ← { g with toShared := s, handles := Function.update g.handles id h }.add id o
      .ok (log, g)

/-- What the crawler reacts to. -/
inductive Input where
  /-- A line with a URL. -/
  | push (line : Str)
  /-- The scheduler, with the answers to `Doc::load_url` by handle. -/
  | tick (loads : ℕ → Url → Load)
  /-- The completion of the transfer of a handle. -/
  | complete (id : ℕ) (r : Completion)

/-- The reaction to an input, with what happens to the database and to the queues. -/
def step (cfg : Config) (parallel : ℕ) (g : GlobalInfo Q) :
    Input → Except Thrown (List Event × GlobalInfo Q)
  | .push line => do
      let u ← Call.url.run (Url.assign line)
      .ok ([], { g with classifier := g.classifier.push u })
  | .tick loads => do
      let g ← g.reschedule cfg parallel loads
      .ok ([], g)
  | .complete id r => g.checkRunCount cfg id r

/-- The crawler as a machine; it stops at an exception. -/
def machine (cfg : Config) (parallel : ℕ) : Machine (GlobalInfo Q) Input (List Event) where
  exec g i := (g.step cfg parallel i).toOption

variable {cfg : Config} {N id : ℕ} {g g' : GlobalInfo Q} {c c' : UrlClassifier Q}
  {h h' : EasyHandle} {o : Option Transfer} {log : List Event} {r : Completion}

lemma step_of_machine {i : Input} (hexec : (machine cfg N).exec g i = some (log, g')) :
    g.step cfg N i = .ok (log, g') := ok_of_toOption hexec

/-! ### One turn of a handle -/

/-- The crawler after a turn of the handle `id`. -/
def turn (g : GlobalInfo Q) (id : ℕ) (h : EasyHandle) (s : Shared Q) (o : Option Transfer) :
    GlobalInfo Q :=
  { toShared := s
    handles := Function.update g.handles id h
    multi := Function.update g.multi id o }

section Turn

variable {s : Shared Q} {m : ℕ}

@[simp] lemma handles_turn_self : (g.turn id h s o).handles id = h := Function.update_self ..

@[simp] lemma multi_turn_self : (g.turn id h s o).multi id = o := Function.update_self ..

lemma handles_turn_of_ne (hm : m ≠ id) : (g.turn id h s o).handles m = g.handles m :=
  Function.update_of_ne hm ..

lemma multi_turn_of_ne (hm : m ≠ id) : (g.turn id h s o).multi m = g.multi m :=
  Function.update_of_ne hm ..

end Turn

lemma add_ok (hfree : g.multi id = none) (ha : g.add id o = .ok g') :
    g' = { g with multi := Function.update g.multi id o } := by
  cases o with
  | none =>
      rw [← Except.ok.inj ha, ← hfree, Function.update_eq_self]
  | some t =>
      simp only [add, hfree, Option.isSome_none, Bool.false_eq_true, if_false] at ha
      exact (Except.ok.inj ha).symm

lemma rescheduleIdle_ok {loads : ℕ → Url → Load} (hfree : (g.handles id).state = .idle →
    g.multi id = none) (hr : g.rescheduleIdle cfg loads id = .ok g') :
    ((g.handles id).state ≠ .idle ∧ g' = g) ∨
      ((g.handles id).state = .idle ∧ ∃ h' c' o,
        (g.handles id).reschedule cfg id (loads id) g.classifier = .ok (h', c', o) ∧
          g' = g.turn id h' { g.toShared with classifier := c' } o) := by
  rw [rescheduleIdle] at hr
  split at hr
  · next hst =>
      rw [bind_eq_ok] at hr
      obtain ⟨⟨h', c', o⟩, hres, hadd⟩ := hr
      refine Or.inr ⟨hst, h', c', o, hres, ?_⟩
      exact add_ok (g := { g with classifier := c', handles := Function.update g.handles id h' })
        (hfree hst) hadd
  · next hst => exact Or.inl ⟨hst, (Except.ok.inj hr).symm⟩

lemma checkRunCount_ok (hr : g.checkRunCount cfg id r = .ok (log, g')) :
    ∃ t h' s' o, g.multi id = some t ∧
      (g.handles id).done cfg id r g.toShared = .ok (h', log, s', o) ∧ g' = g.turn id h' s' o := by
  rw [checkRunCount] at hr
  split at hr
  · exact absurd hr (by simp)
  · next t ht =>
      simp only [bind_eq_ok] at hr
      obtain ⟨⟨h', log₁, s', o⟩, hdone, g₁, hadd, hr⟩ := hr
      obtain ⟨rfl, rfl⟩ := Prod.mk.inj (Except.ok.inj hr)
      refine ⟨t, h', s', o, ht, hdone, ?_⟩
      rw [add_ok (by simp) hadd, turn]
      simp only [Function.update_idem]

/-! ### The queues -/

/-- What holds of the classifier in every run: there is a queue for every handle, the queues are
homogeneous, and the URLs have been parsed. -/
structure QueuesOk (N : ℕ) (c : UrlClassifier Q) : Prop where
  ns : c.table.ns = List.range N
  homogeneous : c.Homogeneous
  parsed : ∀ u ∈ c.contents, ∃ s, Url.assign s = .ok u

lemma queuesOk_new (N : ℕ) : QueuesOk N (UrlClassifier.new Q N) where
  ns := UrlClassifier.ns_new N
  homogeneous := UrlClassifier.homogeneous_new N
  parsed u hu := by
    rw [UrlClassifier.contents_new] at hu
    exact absurd hu (Multiset.notMem_zero u)

namespace QueuesOk

lemma mem_ns (hc : QueuesOk N c) (hid : id < N) : id ∈ c.table.ns := by
  rw [hc.ns]
  exact List.mem_range.2 hid

lemma push (hc : QueuesOk N c) {line : Str} {u : Url} (hu : Url.assign line = .ok u) :
    QueuesOk N (c.push u) where
  ns := by
    have hs := UrlClassifier.step_push c u
    generalize c.push u = c' at hs
    cases hs with
    | known => exact hc.ns
    | claim => exact Table.ns_replace.trans hc.ns
    | park => exact hc.ns
  homogeneous := UrlClassifier.step_homogeneous (UrlClassifier.step_push c u) hc.homogeneous
  parsed v hv := by
    have hsum := UrlClassifier.step_contents (UrlClassifier.step_push c u)
    simp only [UrlClassifier.pushedBy, UrlClassifier.poppedBy, zero_add] at hsum
    rw [← hsum] at hv
    rcases Multiset.mem_add.1 hv with hv | hv
    · exact hc.parsed v hv
    · rw [Multiset.mem_singleton.1 hv]
      exact ⟨line, hu⟩

lemma contents_peek {n : ℕ} {u : Url} (hp : c.peek n = (.ok u, c')) : c'.contents = c.contents := by
  have hsum := UrlClassifier.step_contents (UrlClassifier.step_peek c n)
  rw [hp] at hsum
  simpa [UrlClassifier.answer, UrlClassifier.pushedBy, UrlClassifier.poppedBy] using hsum.symm

lemma peek (hc : QueuesOk N c) (hid : id < N) {u : Url} (hp : c.peek id = (.ok u, c')) :
    QueuesOk N c' where
  ns := by
    have hs := UrlClassifier.step_peek c id
    rw [hp] at hs
    cases hs with
    | look => exact hc.ns
    | refill => exact Table.ns_replace.trans hc.ns
    | create hn => exact absurd (hc.mem_ns hid) hn
  homogeneous := by
    have hs := UrlClassifier.step_homogeneous (UrlClassifier.step_peek c id) hc.homogeneous
    rwa [hp] at hs
  parsed v hv := hc.parsed v (contents_peek hp ▸ hv)

/-- The front of a queue is taken away. -/
lemma contents_drop (hc : QueuesOk N c) (hid : id < N) {us rest : List Url}
    (hd : c.deques id = us ++ rest) :
    c.contents = (us : Multiset Url) + (c.setDeque id rest).contents := by
  have hsum := UrlClassifier.contents_setDeque (c := c) rest (hc.mem_ns hid)
  rw [hd, ← Multiset.coe_add, ← add_assoc] at hsum
  rw [← add_right_cancel hsum, add_comm]

lemma mem_contents (hc : QueuesOk N c) (hid : id < N) {u : Url} (hu : u ∈ c.deques id) :
    u ∈ c.contents := by
  rw [hc.contents_drop hid (List.append_nil _).symm]
  exact Multiset.mem_add.2 (Or.inl hu)

lemma drop (hc : QueuesOk N c) (hid : id < N) {us rest : List Url}
    (hd : c.deques id = us ++ rest) : QueuesOk N (c.setDeque id rest) where
  ns := hc.ns
  homogeneous := by
    obtain ⟨i, hi, rfl⟩ := List.mem_map.1 (hc.mem_ns hid)
    refine hc.homogeneous.setDeque hi fun u hu => Or.inl ?_
    rw [hd]
    exact List.mem_append_right us hu
  parsed v hv := by
    refine hc.parsed v ?_
    rw [hc.contents_drop hid hd]
    exact Multiset.mem_add.2 (Or.inr hv)

end QueuesOk

/-! ### The handles -/

/-- The handle waits for the transfer `t`, which is for the front of its queue `q`. -/
structure Serves (h : EasyHandle) (t : Transfer) (q : List Url) : Prop where
  front : q.head? = some t.origin
  state : h.state = t.state
  request : (t.state = .robots ∧ ∃ url d v, t.origin.normalize = .ok url ∧ h.doc = some d ∧
      d.url = t.request ∧ EasyHandle.robotsUrl v url.host = .ok t.request) ∨
    ((t.state = .head ∨ t.state = .content) ∧ t.origin.normalize = .ok t.request ∧
      ∃ d, h.doc = some d ∧ t.request.normalize = .ok d.url)

namespace Serves

variable {t : Transfer} {q : List Url}

lemma state_cases (hs : Serves h t q) :
    t.state = .robots ∨ t.state = .head ∨ t.state = .content := by
  rcases hs.request with ⟨hr, -⟩ | ⟨hr, -⟩
  · exact Or.inl hr
  · exact Or.inr hr

lemma state_ne_idle (hs : Serves h t q) : t.state ≠ .idle := by
  rcases hs.state_cases with hr | hr | hr <;> simp [hr]

lemma exists_doc (hs : Serves h t q) : ∃ d, h.doc = some d := by
  rcases hs.request with ⟨-, _, d, _, -, hd, -⟩ | ⟨-, -, d, hd, -⟩
  · exact ⟨d, hd⟩
  · exact ⟨d, hd⟩

/-- The document of a request for `robots.txt` has the URL of the request. -/
lemma robots (hs : Serves h t q) (ht : t.state = .robots) {d : Doc} (hd : h.doc = some d) :
    d.url = t.request := by
  rcases hs.request with ⟨-, _, d', _, -, hd', hurl, -⟩ | ⟨hr, -⟩
  · rw [hd, Option.some.injEq] at hd'
    rw [hd', hurl]
  · rw [ht] at hr
    exact absurd hr (by simp)

/-- The other requests are for the normal form of the URL in the queue. -/
lemma page (hs : Serves h t q) (ht : t.state = .head ∨ t.state = .content) :
    t.origin.normalize = .ok t.request ∧ ∃ d, h.doc = some d ∧ t.request.normalize = .ok d.url := by
  rcases hs.request with ⟨hr, -⟩ | ⟨-, hreq⟩
  · rw [hr] at ht
    exact absurd ht (by simp)
  · exact hreq

end Serves

/-- What holds of a handle with its transfer and its queue between the callbacks. -/
structure HandleOk (h : EasyHandle) (o : Option Transfer) (q : List Url) : Prop where
  entry : ∀ f, h.robotsEntry = some f → f.entry.state ≠ .empty
  idle : o = none → h.state = .idle
  serves : ∀ t, o = some t → Serves h t q

/-- Only the front of the queue counts. -/
lemma HandleOk.mono {q q' : List Url} (hh : HandleOk h o q)
    (hq : ∀ x, q.head? = some x → q'.head? = some x) : HandleOk h o q' where
  entry := hh.entry
  idle := hh.idle
  serves t ht :=
    { front := hq _ (hh.serves t ht).front
      state := (hh.serves t ht).state
      request := (hh.serves t ht).request }

/-- A handle that is not idle has a transfer. -/
lemma HandleOk.free {q : List Url} (hh : HandleOk h o q) (hst : h.state = .idle) : o = none := by
  cases o with
  | none => rfl
  | some t =>
      have hs := hh.serves t rfl
      have hcases := hs.state_cases
      rw [← hs.state, hst] at hcases
      exact absurd hcases (by simp)

/-- After `reschedule` the handle is idle or waits for a transfer for the front of its queue. -/
lemma handleOk_reschedule {load : Url → Load} (hn : id ∈ c.table.ns) (hst : h.state ≠ .next)
    (hq : h.state ≠ .idle → c.deques id ≠ [])
    (hentry : ∀ f, h.robotsEntry = some f → f.entry.state ≠ .empty)
    (hr : h.reschedule cfg id load c = .ok (h', c', o)) : HandleOk h' o (c'.deques id) := by
  rcases EasyHandle.reschedule_ok hr with
    ⟨hex, rfl, rfl, rfl⟩ | ⟨u, url, d, t, rfl, hpeek, hurl, hnorm, hreq⟩
  · -- nothing to do: a handle that is not idle would have a URL
    have hnil : c'.deques id = [] := by
      rw [EasyHandle.exhausted] at hex
      split at hex
      · simpa [UrlClassifier.emptyAt_of_mem hn] using hex
      · exact absurd hex (by simp)
    exact ⟨hentry, fun _ => not_not.1 fun hne => hq hne hnil, by simp⟩
  · have hfront := UrlClassifier.front_of_peek hpeek
    cases hreq with
    | robots _ _ hrobots =>
        refine ⟨hentry, by simp, ?_⟩
        rintro t ⟨rfl⟩
        exact ⟨hfront, rfl, Or.inl ⟨rfl, url, _, d.url, hurl, rfl, rfl, hrobots⟩⟩
    | head _ _ =>
        refine ⟨hentry, by simp, ?_⟩
        rintro t ⟨rfl⟩
        exact ⟨hfront, rfl, Or.inr ⟨Or.inl rfl, hurl, d, rfl, hnorm⟩⟩
    | content _ =>
        refine ⟨hentry, by simp, ?_⟩
        rintro t ⟨rfl⟩
        exact ⟨hfront, rfl, Or.inr ⟨Or.inr rfl, hurl, d, rfl, hnorm⟩⟩

/-- `reschedule` looks at the queue and changes nothing else. -/
lemma queuesOk_reschedule {load : Url → Load} (hc : QueuesOk N c) (hid : id < N)
    (hr : h.reschedule cfg id load c = .ok (h', c', o)) :
    QueuesOk N c' ∧ c'.contents = c.contents ∧ h'.robotsEntry = h.robotsEntry ∧
      ∀ m < N, ∀ x, (c.deques m).head? = some x → (c'.deques m).head? = some x := by
  rcases EasyHandle.reschedule_ok hr with
    ⟨-, rfl, rfl, -⟩ | ⟨u, url, d, t, -, hpeek, -, -, hreq⟩
  · exact ⟨hc, rfl, rfl, fun _ _ _ hx => hx⟩
  · refine ⟨hc.peek hid hpeek, QueuesOk.contents_peek hpeek, by cases hreq <;> rfl, ?_⟩
    intro m hm x hx
    have hs := UrlClassifier.step_peek c id
    rw [hpeek] at hs
    exact UrlClassifier.step_front hs (hc.mem_ns hm) (by simp) hx

/-! ### A completed transfer -/

/-- The document `d` was saved for the transfer `t`. -/
def SavedFor (t : Transfer) (d : Doc) : Prop :=
  t.origin.normalize = .ok t.request ∧
    ∃ v, t.request.normalize = .ok v ∧ v.normalize = .ok d.url

/-- What `done` does up to its call of `reschedule`, for the transfer `t`. -/
inductive Stage (cfg : Config) (id : ℕ) (r : Completion) (h : EasyHandle) (c : UrlClassifier Q)
    (t : Transfer) : EasyHandle → List Event → UrlClassifier Q → Prop
  | robots {state : HState} {d' : Doc} {us rest : List Url} {c' : UrlClassifier Q} :
      t.state = .robots →
      EasyHandle.NextTo (some { entry := EasyHandle.newEntry cfg r, host := t.request.host }) id
        r.loads c state us c' rest →
      Stage cfg id r h c t
        { state := state, doc := some d'
          robotsEntry := some { entry := EasyHandle.newEntry cfg r, host := t.request.host } }
        (us.map .popped) c'
  | accepted {d' : Doc} : t.state = .head →
      Stage cfg id r h c t { h with state := .content, doc := some d' } [] c
  | saved {state : HState} {d d' : Doc} {vs us rest : List Url} {c' : UrlClassifier Q} :
      t.state = .head ∨ t.state = .content → c.deques id = t.origin :: vs → SavedFor t d →
      EasyHandle.NextTo h.robotsEntry id r.loads (c.setDeque id vs) state us c' rest →
      Stage cfg id r h c t { h with state := state, doc := some d' }
        (.saved d :: .popped t.origin :: us.map .popped) c'

lemma stage_of_done {s s' : Shared Q} {t : Transfer} (hn : id ∈ s.classifier.table.ns)
    (hh : HandleOk h (some t) (s.classifier.deques id))
    (hd : h.done cfg id r s = .ok (h', log, s', o)) :
    ∃ h₂ c₂, Stage cfg id r h s.classifier t h₂ log c₂ ∧
      h₂.clearUrl.reschedule cfg id r.load c₂ = .ok (h', s'.classifier, o) := by
  have hserves := hh.serves t rfl
  obtain ⟨vs, hvs⟩ := List.head?_eq_some_iff.1 hserves.front
  obtain ⟨d, d₁, h₁, log₁, s₁, h₂, us, c₂, c₃, hdoc, hd₁, hset, hnext, hres, rfl, rfl⟩ :=
    EasyHandle.done_ok hd
  have hn₁ : id ∈ s₁.classifier.table.ns := by
    rw [hset.table]
    exact hn
  refine ⟨h₂, c₂, ?_, hres⟩
  cases hset with
  | next hst =>
      -- no transfer is ever started in the state NEXT
      have hcases := hserves.state_cases
      rw [← hserves.state, hst] at hcases
      exact absurd hcases (by simp)
  | robots hst =>
      have ht : t.state = .robots := hserves.state.symm.trans hst
      have hhost : d₁.url.host = t.request.host := by rw [hd₁, hserves.robots ht hdoc]
      obtain ⟨state, d', rest, rfl, hto⟩ := EasyHandle.nextUrl_of_next hn₁ rfl rfl hnext
      rw [hhost] at hto ⊢
      exact .robots ht hto
  | accepted hst =>
      obtain ⟨rfl, rfl, rfl⟩ := EasyHandle.nextUrl_of_ne_next (by simp) hnext
      exact .accepted (hserves.state.symm.trans hst)
  | @saved d' db u c hst hnorm hpop =>
      rw [UrlClassifier.pop_of_cons hn hvs] at hpop
      obtain ⟨hu, rfl⟩ := Prod.mk.inj hpop
      obtain rfl := Except.ok.inj hu
      rw [hserves.state] at hst
      obtain ⟨state, d'', rest, rfl, hto⟩ := EasyHandle.nextUrl_of_next hn₁ rfl rfl hnext
      obtain ⟨hreq, d₀, hdoc₀, hurl⟩ := hserves.page hst
      rw [hdoc, Option.some.injEq] at hdoc₀
      rw [hd₁, hdoc₀] at hnorm
      exact .saved hst hvs ⟨hreq, d₀.url, hurl, hnorm⟩ hto

/-- The URLs that were popped. -/
def poppedUrls (log : List Event) : List Url :=
  log.filterMap fun
    | .popped u => some u
    | .saved _ => none

lemma poppedUrls_map (us : List Url) : poppedUrls (us.map .popped) = us := by
  rw [poppedUrls, List.filterMap_map]
  exact List.filterMap_some

lemma newEntry_state (cfg : Config) (r : Completion) :
    (EasyHandle.newEntry cfg r).state ≠ .empty := by
  rw [EasyHandle.newEntry]
  split
  · split
    · split <;> simp
    · simp
  · simp

/-- A stage takes a part of the front of the queue away, and leaves the handle ready for
`reschedule`. -/
lemma Stage.popped {h₂ : EasyHandle} {t : Transfer} (hs : Stage cfg id r h c t h₂ log c')
    (hh : HandleOk h (some t) (c.deques id)) :
    h₂.state ≠ .next ∧ (∀ f, h₂.robotsEntry = some f → f.entry.state ≠ .empty) ∧
      ∃ rest, c.deques id = poppedUrls log ++ rest ∧ c' = c.setDeque id rest ∧
        (h₂.state ≠ .idle → rest ≠ []) := by
  cases hs with
  | @robots state d' us rest _ ht hto =>
      refine ⟨hto.state.1, ?_, rest, ?_, hto.classifier, hto.state.2⟩
      · rintro f ⟨rfl⟩
        exact newEntry_state cfg r
      · rw [poppedUrls_map]
        exact hto.deque
  | accepted ht =>
      -- the URL stays for the GET request
      refine ⟨by simp, hh.entry, c.deques id, rfl, (EasyHandle.setDeque_self c id).symm, ?_⟩
      intro _ hnil
      have hfront := (hh.serves t rfl).front
      rw [hnil] at hfront
      exact absurd hfront (by simp)
  | @saved state d d' vs us rest _ ht hvs hsaved hto =>
      refine ⟨hto.state.1, hh.entry, rest, ?_, ?_, hto.state.2⟩
      · have hd := hto.deque
        rw [UrlClassifier.deques_setDeque, Function.update_self] at hd
        have hlog : poppedUrls (.saved d :: .popped t.origin :: us.map .popped) = t.origin :: us :=
          congrArg (t.origin :: ·) (poppedUrls_map us)
        rw [hvs, hlog, hd, List.cons_append]
      · rw [hto.classifier, EasyHandle.setDeque_setDeque]

/-! ### The invariant of the runs -/

/-- What holds between the callbacks. -/
structure Inv (N : ℕ) (g : GlobalInfo Q) : Prop where
  queues : QueuesOk N g.classifier
  handles : ∀ id < N, HandleOk (g.handles id) (g.multi id) (g.classifier.deques id)
  outside : ∀ id, N ≤ id → g.multi id = none

lemma inv_new (db : Collection) (N : ℕ) : Inv N (new Q db N) where
  queues := queuesOk_new N
  handles _ _ :=
    ⟨fun _ hf => absurd hf (by simp [new]), fun _ => rfl, fun _ ht => absurd ht (by simp [new])⟩
  outside _ _ := rfl

/-- A turn of the handle `id` that leaves the fronts of the other queues alone. -/
lemma Inv.turn {s : Shared Q} (hg : Inv N g) (hid : id < N) (hq : QueuesOk N s.classifier)
    (hfront : ∀ m < N, m ≠ id → ∀ x, (g.classifier.deques m).head? = some x →
      (s.classifier.deques m).head? = some x)
    (hh : HandleOk h' o (s.classifier.deques id)) : Inv N (g.turn id h' s o) where
  queues := hq
  handles m hm := by
    by_cases hmid : m = id
    · subst hmid
      rw [handles_turn_self, multi_turn_self]
      exact hh
    · rw [handles_turn_of_ne hmid, multi_turn_of_ne hmid]
      exact (hg.handles m hm).mono (hfront m hm hmid)
  outside m hm := by
    have hmid : m ≠ id := by omega
    rw [multi_turn_of_ne hmid]
    exact hg.outside m hm

lemma Inv.rescheduleIdle {loads : ℕ → Url → Load} (hg : Inv N g) (hid : id < N)
    (hr : g.rescheduleIdle cfg loads id = .ok g') :
    Inv N g' ∧ g'.classifier.contents = g.classifier.contents := by
  have hh := hg.handles id hid
  rcases rescheduleIdle_ok hh.free hr with ⟨-, rfl⟩ | ⟨hst, h', c', o, hres, rfl⟩
  · exact ⟨hg, rfl⟩
  · obtain ⟨hq, hcont, -, hfront⟩ := queuesOk_reschedule hg.queues hid hres
    refine ⟨hg.turn hid hq (fun m hm _ => hfront m hm) ?_, hcont⟩
    exact handleOk_reschedule (hg.queues.mem_ns hid) (by simp [hst]) (fun hne => absurd hst hne)
      hh.entry hres

lemma Inv.reschedule {loads : ℕ → Url → Load} (hg : Inv N g)
    (hr : g.reschedule cfg N loads = .ok g') :
    Inv N g' ∧ g'.classifier.contents = g.classifier.contents := by
  -- the handles that are left are all below `N`
  have hloop := foldlM_invariant
    (I := fun l g' => (∀ id ∈ l, id < N) ∧ Inv N g' ∧
      g'.classifier.contents = g.classifier.contents) ?_ hr
    ⟨fun id hid => List.mem_range.1 hid, hg, rfl⟩
  · exact hloop.2
  · rintro id l g₁ g₂ ⟨hl, hg₁, hcont⟩ hbody
    obtain ⟨hg₂, hcont₂⟩ := hg₁.rescheduleIdle (hl id (by simp)) hbody
    exact ⟨fun m hm => hl m (List.mem_cons_of_mem id hm), hg₂, hcont₂.trans hcont⟩

lemma Inv.lt_of_multi {t : Transfer} (hg : Inv N g) (ht : g.multi id = some t) : id < N := by
  by_contra hid
  rw [hg.outside id (Nat.le_of_not_lt hid)] at ht
  exact absurd ht (by simp)

/-- What `check_run_count` does: the handle had a transfer, and `done` brings it to a stage from
which the handle is rescheduled. -/
lemma Inv.exists_stage (hg : Inv N g) (hr : g.checkRunCount cfg id r = .ok (log, g')) :
    ∃ t h' s' o h₂ c₂, g.multi id = some t ∧ id < N ∧
      HandleOk (g.handles id) (some t) (g.classifier.deques id) ∧
      Stage cfg id r (g.handles id) g.classifier t h₂ log c₂ ∧
      h₂.clearUrl.reschedule cfg id r.load c₂ = .ok (h', s'.classifier, o) ∧
      g' = g.turn id h' s' o := by
  obtain ⟨t, h', s', o, ht, hdone, rfl⟩ := checkRunCount_ok hr
  have hid := hg.lt_of_multi ht
  have hh := hg.handles id hid
  rw [ht] at hh
  obtain ⟨h₂, c₂, hstage, hres⟩ := stage_of_done (hg.queues.mem_ns hid) hh hdone
  exact ⟨t, h', s', o, h₂, c₂, ht, hid, hh, hstage, hres, rfl⟩

lemma Inv.checkRunCount (hg : Inv N g) (hr : g.checkRunCount cfg id r = .ok (log, g')) :
    Inv N g' ∧ g.classifier.contents
      = (poppedUrls log : Multiset Url) + g'.classifier.contents := by
  obtain ⟨t, h', s', o, h₂, c₂, ht, hid, hh, hstage, hres, rfl⟩ := hg.exists_stage hr
  obtain ⟨hst, hentry, rest, hd, rfl, hrest⟩ := hstage.popped hh
  have hq₂ := hg.queues.drop hid hd
  obtain ⟨hq, hcont, -, hfront⟩ := queuesOk_reschedule hq₂ hid hres
  refine ⟨hg.turn hid hq ?_ ?_, ?_⟩
  · intro m hm hmid x hx
    refine hfront m hm x ?_
    rwa [UrlClassifier.deques_setDeque, Function.update_of_ne hmid]
  · refine handleOk_reschedule (h := h₂.clearUrl) (hq₂.mem_ns hid) hst (fun hne => ?_) hentry hres
    rw [UrlClassifier.deques_setDeque, Function.update_self]
    exact hrest hne
  · rw [hg.queues.contents_drop hid hd, ← hcont]
    rfl

lemma Inv.push {line : Str} {u : Url} (hg : Inv N g) (hu : Url.assign line = .ok u) :
    Inv N { g with classifier := g.classifier.push u } where
  queues := hg.queues.push hu
  handles id hid := (hg.handles id hid).mono fun _ hx =>
    UrlClassifier.step_front (UrlClassifier.step_push g.classifier u) (hg.queues.mem_ns hid)
      (by simp) hx
  outside := hg.outside

/-- The URL that an input brings in. -/
def Input.pushed : Input → Multiset Url
  | .push line =>
      match Url.assign line with
      | .ok u => {u}
      | .error _ => 0
  | .tick _ => 0
  | .complete _ _ => 0

/-- Every reaction keeps the invariant and the balance of the URLs. -/
lemma Inv.step {i : Input} (hg : Inv N g) (hs : g.step cfg N i = .ok (log, g')) :
    Inv N g' ∧ g.classifier.contents + i.pushed
      = (poppedUrls log : Multiset Url) + g'.classifier.contents := by
  cases i with
  | push line =>
      rw [GlobalInfo.step, bind_eq_ok] at hs
      obtain ⟨u, hu, hs⟩ := hs
      rw [Call.run_eq_ok_iff] at hu
      obtain ⟨rfl, rfl⟩ := Prod.mk.inj (Except.ok.inj hs)
      refine ⟨hg.push hu, ?_⟩
      have hsum := UrlClassifier.step_contents (UrlClassifier.step_push g.classifier u)
      simpa [UrlClassifier.pushedBy, UrlClassifier.poppedBy, Input.pushed, hu, poppedUrls]
        using hsum
  | tick loads =>
      rw [GlobalInfo.step, bind_eq_ok] at hs
      obtain ⟨g₁, hres, hs⟩ := hs
      obtain ⟨rfl, rfl⟩ := Prod.mk.inj (Except.ok.inj hs)
      obtain ⟨hg₁, hcont⟩ := hg.reschedule hres
      refine ⟨hg₁, ?_⟩
      simp [hcont, Input.pushed, poppedUrls]
  | complete id r =>
      obtain ⟨hg', hcont⟩ := hg.checkRunCount hs
      refine ⟨hg', ?_⟩
      rw [Input.pushed, add_zero]
      exact hcont

/-- The invariant holds in every run. -/
theorem inv_of_run {G : GlobalInfo Q → Input → Prop} {db : Collection}
    {l : List (Input × List Event)} (h : (machine cfg N).Run G (new Q db N) l g) : Inv N g :=
  h.invariant (fun _ _ _ _ hg _ hexec => (hg.step (step_of_machine hexec)).1) (inv_new db N)

/-! ### No URL is lost or fetched under a wrong name -/

/-- The `robots.txt` that the handle holds has been parsed and disallows the URL `u`. -/
def RobotsRefused (h : EasyHandle) (u : Url) : Prop :=
  ∃ f url, h.robotsEntry = some f ∧ u.normalize = .ok url ∧ f.entry.state = .present ∧
    Robots.pathAllowed f.entry.uasRulesAll userAgent url.path.get = false

/-- The URLs that a completion pops: the one of the transfer after a document was saved for it, and
those that are refused. -/
def Accounted (o : Option Transfer) (log : List Event) (h : EasyHandle) : Prop :=
  ∃ us : List Url, (∀ u ∈ us, RobotsRefused h u) ∧
    (log = us.map .popped ∨
      ∃ t d, o = some t ∧ SavedFor t d ∧ log = .saved d :: .popped t.origin :: us.map .popped)

lemma robotsRefused_of_refused {u : Url}
    (hentry : ∀ f, h.robotsEntry = some f → f.entry.state ≠ .empty)
    (hu : EasyHandle.Refused h.robotsEntry u) : RobotsRefused h u := by
  obtain ⟨f, url, hf, hurl, hpass⟩ := hu
  have hne := hentry f hf
  refine ⟨f, url, hf, hurl, ?_⟩
  rw [EasyHandle.passes, Bool.or_eq_false_iff, Robots.Entry.triedButFailed] at hpass
  obtain ⟨hfail, hallow⟩ := hpass
  -- a check with an entry that was never filled would refuse everything
  cases hst : f.entry.state with
  | empty => exact absurd hst hne
  | present => exact ⟨rfl, by simpa [hst] using hallow⟩
  | notAvailable => simp [hst] at hfail
  | eparse => simp [hst] at hfail

lemma Stage.accounted {h₂ : EasyHandle} {t : Transfer} (hs : Stage cfg id r h c t h₂ log c')
    (hentry : ∀ f, h₂.robotsEntry = some f → f.entry.state ≠ .empty) :
    Accounted (some t) log h₂ := by
  cases hs with
  | robots ht hto =>
      exact ⟨_, fun u hu => robotsRefused_of_refused hentry (hto.refused u hu), Or.inl rfl⟩
  | accepted ht => exact ⟨[], by simp, Or.inl rfl⟩
  | saved ht hvs hsaved hto =>
      exact ⟨_, fun u hu => robotsRefused_of_refused hentry (hto.refused u hu),
        Or.inr ⟨t, _, rfl, hsaved, rfl⟩⟩

lemma Inv.accounted (hg : Inv N g) (hr : g.checkRunCount cfg id r = .ok (log, g')) :
    Accounted (g.multi id) log (g'.handles id) := by
  obtain ⟨t, h', s', o, h₂, c₂, ht, hid, hh, hstage, hres, rfl⟩ := hg.exists_stage hr
  rw [ht]
  obtain ⟨-, hentry, rest, hd, rfl, -⟩ := hstage.popped hh
  obtain ⟨-, -, hsame, -⟩ := queuesOk_reschedule (hg.queues.drop hid hd) hid hres
  obtain ⟨us, hus, hlog⟩ := hstage.accounted hentry
  refine ⟨us, fun u hu => ?_, hlog⟩
  obtain ⟨f, url, hf, hrest⟩ := hus u hu
  refine ⟨f, url, ?_, hrest⟩
  rw [handles_turn_self, hsame]
  exact hf

lemma orderly_add (hfree : g.multi id = none) : Orderly (g.add id o) := by
  unfold add
  split
  · exact .ok _
  · rw [hfree, if_neg (by simp)]
    exact .ok _

/-- The completion of a transfer throws nothing of its own. -/
lemma Inv.orderly_checkRunCount {t : Transfer} (hg : Inv N g) (ht : g.multi id = some t) :
    Orderly (g.checkRunCount cfg id r) := by
  have hid := hg.lt_of_multi ht
  have hserves := (hg.handles id hid).serves t ht
  obtain ⟨us, hus⟩ := List.head?_eq_some_iff.1 hserves.front
  obtain ⟨d, hdoc⟩ := hserves.exists_doc
  unfold GlobalInfo.checkRunCount
  rw [ht]
  refine (EasyHandle.orderly_done (hg.queues.mem_ns hid) hdoc ?_ ?_).bind
    fun x _ => Orderly.bind (orderly_add ?_) fun _ _ => .ok _
  · rw [hserves.state]
    exact hserves.state_ne_idle
  · exact fun hnil => absurd (hnil.symm.trans hus) (by simp)
  · exact Function.update_self ..

lemma Inv.popSucceeds (hg : Inv N g) (id : ℕ) (r : Completion) :
    PopSucceeds (g.checkRunCount cfg id r) := by
  cases ht : g.multi id with
  | none =>
      rw [GlobalInfo.checkRunCount, ht]
      exact fun e he => absurd (congrArg Thrown.call (Except.error.inj he)) (by simp)
  | some t => exact (hg.orderly_checkRunCount ht).popSucceeds

/-- In every run, when a transfer in the state HEAD or CONTENT is completed, the front of the queue
is the URL whose normal form was handed to curl; no `pop` throws; and every URL that leaves the
classifier has had its document saved, or is disallowed by `robots.txt`, in the same reaction. -/
theorem transfer_for_front {db : Collection} {l : List (Input × List Event)}
    (h : (machine cfg N).Run Machine.Free (new Q db N) l g) :
    (∀ id t, g.multi id = some t →
      (g.handles id).state = .head ∨ (g.handles id).state = .content →
      (∃ us, g.classifier.deques id = t.origin :: us) ∧ t.origin.normalize = .ok t.request) ∧
    (∀ id r, PopSucceeds (g.checkRunCount cfg id r)) ∧
    ∀ i log g', g.step cfg N i = .ok (log, g') →
      g.classifier.contents + i.pushed
        = (poppedUrls log : Multiset Url) + g'.classifier.contents ∧
      (log = [] ∨
        ∃ id r, i = .complete id r ∧ Accounted (g.multi id) log (g'.handles id)) := by
  have hg := inv_of_run h
  refine ⟨fun id t ht hst => ?_, hg.popSucceeds, fun i log g' hs => ⟨(hg.step hs).2, ?_⟩⟩
  · have hserves := (hg.handles id (hg.lt_of_multi ht)).serves t ht
    rw [hserves.state] at hst
    exact ⟨List.head?_eq_some_iff.1 hserves.front, (hserves.page hst).1⟩
  · cases i with
    | push line =>
        rw [step, bind_eq_ok] at hs
        obtain ⟨u, -, hs⟩ := hs
        exact Or.inl (Prod.mk.inj (Except.ok.inj hs)).1.symm
    | tick loads =>
        rw [step, bind_eq_ok] at hs
        obtain ⟨g₁, -, hs⟩ := hs
        exact Or.inl (Prod.mk.inj (Except.ok.inj hs)).1.symm
    | complete id r => exact Or.inr ⟨id, r, rfl, hg.accounted hs⟩

/-- A configuration in which every `robots.txt` is parsed and has no records. -/
def plainConfig : Config where
  unset := 0
  unrecognized := 1
  emptyType := 9
  contentType := fun _ => 2
  yylex := fun _ => some (0, [])

/-- A completion with an effective URL and an HTTP code, and documents that are not in the
database. -/
def reply (effUrl : String) (httpCode : Int32) : Completion where
  effUrl := lit effUrl
  result := 0
  httpCode := httpCode
  loads := fun _ _ => {}
  load := fun _ => {}

/-- The run of a URL up to its HEAD request. -/
theorem transfer_for_front_head :
    ∃ (l : List (Input × List Event)) (g : GlobalInfo (PriorityQueue.ofList hostKey))
      (t : Transfer),
      (machine plainConfig 1).Run Machine.Free (new _ (fun _ => none) 1) l g ∧ l.length = 3 ∧
        g.multi 0 = some t ∧ t.text = lit "http://a/x" ∧
        ∃ us, g.classifier.deques 0 = t.origin :: us := by
  obtain ⟨l, g, hrun, hp⟩ := Machine.exists_run_of_any
    (M := machine plainConfig 1) (G := Machine.Free)
    (s := new (PriorityQueue.ofList hostKey) (fun _ => none) 1)
    (p := fun x => x.1.length == 3 && (x.2.handles 0).state == .head &&
      (x.2.multi 0).any fun t => t.text == lit "http://a/x")
    [.push (lit "http://a/x"), .tick fun _ _ => {}, .complete 0 (reply "http://a/robots.txt" 404)]
    (fun _ _ _ => trivial) (by decide +kernel)
  simp only [Bool.and_eq_true, beq_iff_eq] at hp
  obtain ⟨⟨hlen, hst⟩, hmulti⟩ := hp
  cases ht : g.multi 0 with
  | none =>
      rw [ht] at hmulti
      exact absurd hmulti (by simp)
  | some t =>
      rw [ht] at hmulti
      refine ⟨l, g, t, hrun, hlen, ht, by simpa using hmulti, ?_⟩
      exact ((transfer_for_front hrun).1 0 t ht (Or.inl hst)).1

end GlobalInfo

end Mycelium
