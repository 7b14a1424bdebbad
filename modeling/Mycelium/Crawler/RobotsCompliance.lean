import Mycelium.Common.UrlIdempotent
import Mycelium.Crawler.Crawl

/-!
# Robots compliance

A HEAD request is meant to be started only with the `robots.txt` of its own host at hand.  The entry
of a handle outlives the URLs it was fetched for: an idle handle keeps it while its queue is given
to another host, and if `Doc::load_url` then answers that the document is there, the handle goes on
with the entry of the old host.

The address of `robots.txt` is made from the URL of the document by overwriting the scheme, the host
and the path, so that a query and a fragment are still in it.
-/

namespace Mycelium

open Lib Bson

namespace GlobalInfo

variable {Q : PriorityQueue hostKey} {cfg : Config} {N id : ℕ} {g g' : GlobalInfo Q}
  {c c' : UrlClassifier Q} {h h' : EasyHandle} {o : Option Transfer} {t : Transfer}
  {log : List Event} {r : Completion}

/-! ### The property and the condition -/

/-- The handle holds the `robots.txt` of the host of the request, and it does not stand against the
request. -/
def Compliant (h : EasyHandle) (t : Transfer) : Prop :=
  ∃ f, h.robotsEntry = some f ∧ f.host = t.request.host ∧
    (f.entry.triedButFailed = true ∨
      Robots.pathAllowed f.entry.uasRulesAll userAgent t.request.path.get = true)

/-- Every HEAD request that is under way is compliant. -/
def RobotsCompliant (g : GlobalInfo Q) : Prop :=
  ∀ id t, g.multi id = some t → t.state = .head → Compliant (g.handles id) t

/-- The host whose `robots.txt` the handle holds. -/
def heldHost (h : EasyHandle) : Option Str := h.robotsEntry.map Fetched.host

/-- `Doc::load_url` answers `true` only for URLs of the host, if there is one. -/
def OnHost (host : Option Str) (load : Url → Load) : Prop :=
  ∀ k ∈ host, ∀ url, (load url).found = true → url.host = k

/-- The condition on an input: in `EasyHandle::reschedule`, `Doc::load_url` answers `true` only for
URLs of the host whose `robots.txt` the handle holds or, at the completion of a request for
`robots.txt`, has just received. -/
def LoadsOnHost (g : GlobalInfo Q) : Input → Prop
  | .push _ => True
  | .tick loads => ∀ id, (g.handles id).state = .idle → OnHost (heldHost (g.handles id)) (loads id)
  | .complete id r => ∀ t ∈ g.multi id,
      OnHost (if t.state = .robots then some t.request.host else heldHost (g.handles id)) r.load

/-! ### Hosts -/

/-- The URL of `robots.txt` has the host of the normal form it is made from. -/
lemma host_robotsUrl {line : Str} {u url v request : Url} (hu : Url.assign line = .ok u)
    (hurl : u.normalize = .ok url) (hr : EasyHandle.robotsUrl v url.host = .ok request) :
    request.host = url.host := by
  simp only [EasyHandle.robotsUrl, bind_eq_ok] at hr
  obtain ⟨v₁, -, v₂, hhost, hr⟩ := hr
  have hset : v₂.host = escape url.host urlCharAuth := by
    rw [Url.setHost] at hhost
    split at hhost
    · rw [← Except.ok.inj hhost]
    · exact absurd hhost (by simp)
  have hacc := Url.accepted_of_assign hu
  have hclean : Clean urlCharAuth url.host := by
    rw [Url.host_normalize hacc hurl]
    exact Url.clean_hostNormal hacc.host_valid
  rw [← Except.ok.inj hr, Url.setPath, hset, escape_of_clean hclean]

/-- The URLs of a queue have one normal host. -/
lemma QueuesOk.host_eq (hc : QueuesOk N c) (hid : id < N) {u v url : Url}
    (hu : u ∈ c.deques id) (hv : v ∈ c.deques id) (hurl : u.normalize = .ok url) :
    url.host = Url.hostNormal v.host := by
  obtain ⟨e, he, rfl⟩ := List.mem_map.1 (hc.mem_ns hid)
  obtain ⟨line, hline⟩ := hc.parsed u (hc.mem_contents hid hu)
  rw [Url.host_normalize (Url.accepted_of_assign hline) hurl, hc.homogeneous e he u hu,
    hc.homogeneous e he v hv]

/-- The request of a transfer has the normal host of the queue. -/
lemma Serves.host_eq (hs : Serves h t (c.deques id)) (hc : QueuesOk N c) (hid : id < N) {u : Url}
    (hu : u ∈ c.deques id) : t.request.host = Url.hostNormal u.host := by
  have hfront : t.origin ∈ c.deques id := List.mem_of_head? hs.front
  rcases hs.request with ⟨-, url, d, v, hurl, -, -, hrobots⟩ | ⟨-, hurl, -⟩
  · obtain ⟨line, hline⟩ := hc.parsed _ (hc.mem_contents hid hfront)
    rw [host_robotsUrl hline hurl hrobots]
    exact hc.host_eq hid hfront hu hurl
  · exact hc.host_eq hid hfront hu hurl

/-! ### One turn of a handle -/

/-- The entry of the handle is for the host of the transfer, and backs a HEAD request. -/
structure Backed (h : EasyHandle) (t : Transfer) : Prop where
  host : t.state = .head ∨ t.state = .content →
    ∀ f, h.robotsEntry = some f → f.host = t.request.host
  head : t.state = .head → Compliant h t

/-- What `reschedule` finds in a handle that is not idle: its entry is for the host of its queue,
and for the state HEAD it has passed the front of the queue. -/
structure Ready (h : EasyHandle) (q : List Url) : Prop where
  host : h.state ≠ .idle → ∀ f, h.robotsEntry = some f → ∀ u ∈ q, f.host = Url.hostNormal u.host
  head : h.state = .head → ∃ u us url f, q = u :: us ∧ u.normalize = .ok url ∧
    h.robotsEntry = some f ∧ EasyHandle.passes f url = true

/-- The request that `reschedule` starts is backed. -/
lemma backed_reschedule {load : Url → Load} (hc : QueuesOk N c) (hid : id < N)
    (hq : h.state ≠ .idle → c.deques id ≠ []) (hready : Ready h (c.deques id))
    (hload : h.state = .idle → OnHost (heldHost h) load)
    (hr : h.reschedule cfg id load c = .ok (h', c', some t)) : Backed h' t := by
  rcases EasyHandle.reschedule_ok hr with
    ⟨-, -, -, hnone⟩ | ⟨u, url, d, t', ht', hpeek, hurl, -, hreq⟩
  · exact absurd hnone (by simp)
  obtain rfl := Option.some.inj ht'
  -- a handle that is not idle goes on with the front of its queue
  have hfront : ∀ {v : Url} {vs : List Url}, c.deques id = v :: vs → v = u := by
    intro v vs hd
    rw [UrlClassifier.peek_of_cons (hc.mem_ns hid) hd] at hpeek
    exact Except.ok.inj (Prod.mk.inj hpeek).1
  have hhost : h.state ≠ .idle → ∀ f, h.robotsEntry = some f → f.host = url.host := by
    intro hst f hf
    obtain ⟨v, vs, hd⟩ := List.exists_cons_of_ne_nil (hq hst)
    have hu : u ∈ c.deques id := by rw [← hfront hd, hd]; simp
    rw [hready.host hst f hf u hu, hc.host_eq hid hu hu hurl]
  cases hreq with
  | robots => exact ⟨by simp, by simp⟩
  | head hst _ =>
      have hne : h.state ≠ .idle := by simp [hst]
      refine ⟨fun _ => hhost hne, fun _ => ?_⟩
      obtain ⟨v, vs, url', f, hd, hurl', hf, hpass⟩ := hready.head hst
      rw [hfront hd, hurl, Except.ok.injEq] at hurl'
      subst hurl'
      refine ⟨f, hf, hhost hne f hf, ?_⟩
      rw [EasyHandle.passes, Bool.or_eq_true, Bool.and_eq_true] at hpass
      exact hpass.imp_right And.right
  | content hfound =>
      refine ⟨fun _ f hf => ?_, by simp⟩
      -- an idle handle takes what `peek` gives, of any host: here the condition is needed
      by_cases hst : h.state = .idle
      · have hfound' := hfound.resolve_left (by simp [hst])
        exact (hload hst f.host (by simp [heldHost, show h.robotsEntry = some f from hf]) url
          hfound').symm
      · exact hhost hst f hf

lemma ready_of_nextTo {entry : Option Fetched} {loads : ℕ → Url → Load} {state : HState}
    {us rest : List Url} {d : Option Doc}
    (hto : EasyHandle.NextTo entry id loads c state us c' rest)
    (hhost : ∀ f, entry = some f → ∀ u ∈ rest, f.host = Url.hostNormal u.host) :
    Ready { state := state, doc := d, robotsEntry := entry } (c'.deques id) := by
  have hd : c'.deques id = rest := by
    rw [hto.classifier, UrlClassifier.deques_setDeque, Function.update_self]
  rw [hd]
  refine ⟨fun _ => hhost, ?_⟩
  rintro rfl
  rcases hto.stop with ⟨hst, -⟩ | ⟨u, vs, rfl, url, hurl, ⟨hst, -⟩ | hst | ⟨-, f, hf, hpass⟩⟩
  · exact absurd hst (by simp)
  · exact absurd hst (by simp)
  · exact absurd hst (by simp)
  · exact ⟨u, vs, url, f, rfl, hurl, hf, hpass⟩

/-- After the switch and the loop of `done` the handle is ready. -/
lemma Stage.ready {h₂ : EasyHandle} (hs : Stage cfg id r h c t h₂ log c') (hc : QueuesOk N c)
    (hid : id < N) (hserves : Serves h t (c.deques id)) (hb : Backed h t) :
    Ready h₂ (c'.deques id) ∧
      heldHost h₂ = if t.state = .robots then some t.request.host else heldHost h := by
  cases hs with
  | @robots state d' us rest _ ht hto =>
      refine ⟨ready_of_nextTo hto ?_, by rw [if_pos ht]; rfl⟩
      rintro f ⟨rfl⟩ u hu
      refine hserves.host_eq hc hid ?_
      rw [hto.deque]
      exact List.mem_append_right us hu
  | accepted ht =>
      -- the entry is the one of the HEAD request
      refine ⟨⟨fun _ f hf u hu => ?_, by simp⟩, by rw [if_neg (by simp [ht])]; rfl⟩
      rw [hb.host (Or.inl ht) f hf]
      exact hserves.host_eq hc hid hu
  | @saved state d d' vs us rest _ ht hvs _ hto =>
      have hne : t.state ≠ .robots := by rcases ht with ht | ht <;> simp [ht]
      refine ⟨ready_of_nextTo hto ?_, by rw [if_neg hne]; rfl⟩
      intro f hf u hu
      rw [hb.host ht f hf]
      refine hserves.host_eq hc hid ?_
      have hd := hto.deque
      rw [UrlClassifier.deques_setDeque, Function.update_self] at hd
      rw [hvs, hd]
      exact List.mem_cons_of_mem _ (List.mem_append_right us hu)

/-! ### The invariant of the runs -/

/-- The invariant of the crawl, and every transfer is backed. -/
structure BackedInv (N : ℕ) (g : GlobalInfo Q) : Prop extends Inv N g where
  backed : ∀ id t, g.multi id = some t → Backed (g.handles id) t

lemma BackedInv.turn {s : Shared Q} (hg : BackedInv N g) (hinv : Inv N (g.turn id h' s o))
    (hb : ∀ t, o = some t → Backed h' t) : BackedInv N (g.turn id h' s o) where
  toInv := hinv
  backed m t ht := by
    by_cases hm : m = id
    · subst hm
      rw [multi_turn_self] at ht
      rw [handles_turn_self]
      exact hb t ht
    · rw [multi_turn_of_ne hm] at ht
      rw [handles_turn_of_ne hm]
      exact hg.backed m t ht

lemma BackedInv.rescheduleIdle {loads : ℕ → Url → Load} (hg : BackedInv N g) (hid : id < N)
    (hload : (g.handles id).state = .idle → OnHost (heldHost (g.handles id)) (loads id))
    (hr : g.rescheduleIdle cfg loads id = .ok g') :
    BackedInv N g' ∧ ∀ m ≠ id, g'.handles m = g.handles m := by
  have hinv := (hg.toInv.rescheduleIdle hid hr).1
  rcases rescheduleIdle_ok (hg.handles id hid).free hr with ⟨-, rfl⟩ | ⟨hst, h', c', o, hres, rfl⟩
  · exact ⟨hg, fun _ _ => rfl⟩
  · refine ⟨hg.turn hinv ?_, fun m hm => handles_turn_of_ne hm⟩
    rintro t rfl
    exact backed_reschedule hg.queues hid (fun hne => absurd hst hne)
      ⟨fun hne => absurd hst hne, fun hhead => absurd (hst.symm.trans hhead) (by simp)⟩ hload hres

lemma BackedInv.reschedule {loads : ℕ → Url → Load} (hg : BackedInv N g)
    (hload : ∀ id, (g.handles id).state = .idle → OnHost (heldHost (g.handles id)) (loads id))
    (hr : g.reschedule cfg N loads = .ok g') : BackedInv N g' := by
  -- the handles whose turn is still to come are as before the tick
  have hloop := foldlM_invariant
    (I := fun l g' => l.Nodup ∧ (∀ id ∈ l, id < N) ∧ (∀ id ∈ l, g'.handles id = g.handles id) ∧
      BackedInv N g') ?_ hr
    ⟨List.nodup_range, fun id hid => List.mem_range.1 hid, fun _ _ => rfl, hg⟩
  · exact hloop.2.2.2
  · rintro id l g₁ g₂ ⟨hnodup, hl, hsame, hg₁⟩ hbody
    obtain ⟨hid, hnodup⟩ := List.nodup_cons.1 hnodup
    have hid₁ : g₁.handles id = g.handles id := hsame id (by simp)
    obtain ⟨hg₂, hother⟩ :=
      hg₁.rescheduleIdle (hl id (by simp)) (by rw [hid₁]; exact hload id) hbody
    refine ⟨hnodup, fun m hm => hl m (List.mem_cons_of_mem id hm), fun m hm => ?_, hg₂⟩
    rw [hother m fun hmid => hid (hmid ▸ hm)]
    exact hsame m (List.mem_cons_of_mem id hm)

lemma BackedInv.checkRunCount (hg : BackedInv N g)
    (hload : ∀ t ∈ g.multi id,
      OnHost (if t.state = .robots then some t.request.host else heldHost (g.handles id)) r.load)
    (hr : g.checkRunCount cfg id r = .ok (log, g')) : BackedInv N g' := by
  have hinv := (hg.toInv.checkRunCount hr).1
  obtain ⟨t, h', s', o, h₂, c₂, ht, hid, hh, hstage, hres, rfl⟩ := hg.exists_stage hr
  obtain ⟨-, -, rest, hd, hc₂, hrest⟩ := hstage.popped hh
  obtain ⟨hready, hheld⟩ :=
    hstage.ready hg.queues hid (hh.serves t rfl) (hg.backed id t ht)
  refine hg.turn hinv ?_
  rintro t' rfl
  refine backed_reschedule (h := h₂.clearUrl) (hc₂ ▸ hg.queues.drop hid hd) hid ?_
    ⟨hready.host, hready.head⟩ ?_ hres
  · intro hne
    rw [hc₂, UrlClassifier.deques_setDeque, Function.update_self]
    exact hrest hne
  · intro _
    have hon := hload t ht
    rw [← hheld] at hon
    exact hon

lemma BackedInv.step {i : Input} (hg : BackedInv N g) (hi : g.LoadsOnHost i)
    (hs : g.step cfg N i = .ok (log, g')) : BackedInv N g' := by
  cases i with
  | push line =>
      have hinv := (hg.toInv.step hs).1
      rw [GlobalInfo.step, bind_eq_ok] at hs
      obtain ⟨u, -, hs⟩ := hs
      obtain ⟨rfl, rfl⟩ := Prod.mk.inj (Except.ok.inj hs)
      exact ⟨hinv, hg.backed⟩
  | tick loads =>
      rw [GlobalInfo.step, bind_eq_ok] at hs
      obtain ⟨g₁, hres, hs⟩ := hs
      obtain ⟨rfl, rfl⟩ := Prod.mk.inj (Except.ok.inj hs)
      exact hg.reschedule hi hres
  | complete id r => exact hg.checkRunCount hi hs

lemma backedInv_new (db : Collection) (N : ℕ) : BackedInv N (new Q db N) :=
  ⟨inv_new db N, fun _ _ ht => absurd ht (by simp [new])⟩

lemma backedInv_of_run {db : Collection} {l : List (Input × List Event)}
    (h : (machine cfg N).Run LoadsOnHost (new Q db N) l g) : BackedInv N g :=
  h.invariant (fun _ _ _ _ hg hi hexec => hg.step hi (step_of_machine hexec)) (backedInv_new db N)

/-- In every run in which the answers of `Doc::load_url` meet the condition, every HEAD request is
compliant. -/
theorem robotsCompliant_of_loadsOnHost {db : Collection} {l : List (Input × List Event)}
    (h : (machine cfg N).Run LoadsOnHost (new Q db N) l g) : g.RobotsCompliant :=
  fun id t ht hst => ((backedInv_of_run h).backed id t ht).head hst

/-- A `robots.txt` that could not be fetched, and the HEAD request after it. -/
theorem robotsCompliant_of_loadsOnHost_head :
    ∃ (l : List (Input × List Event)) (g : GlobalInfo (PriorityQueue.ofList hostKey)),
      (machine plainConfig 1).Run LoadsOnHost (new _ (fun _ => none) 1) l g ∧ l.length = 3 ∧
        (g.multi 0).any (fun t => t.state == .head) = true ∧ g.RobotsCompliant := by
  obtain ⟨l, g, hrun, hp⟩ := Machine.exists_run_of_any
    (M := machine plainConfig 1) (G := LoadsOnHost)
    (s := new (PriorityQueue.ofList hostKey) (fun _ => none) 1)
    (p := fun x => x.1.length == 3 && (x.2.multi 0).any fun t => t.state == .head)
    [.push (lit "http://a/x"), .tick fun _ _ => {}, .complete 0 (reply "http://a/robots.txt" 404)]
    (by simp [LoadsOnHost, OnHost, reply]) (by decide +kernel)
  simp only [Bool.and_eq_true, beq_iff_eq] at hp
  exact ⟨l, g, hrun, hp.1, hp.2, robotsCompliant_of_loadsOnHost hrun⟩

/-- The inputs of a run with one handle.  The host `a` is crawled and its queue runs empty; the
first URL of `b` is found in the database, so that it is fetched without a request for `robots.txt`;
the HEAD request for the second one relies on the entry of `a`. -/
def staleInputs : List Input :=
  [.push (lit "http://a/x"), .tick fun _ _ => {}, .complete 0 (reply "http://a/robots.txt" 404),
    .complete 0 (reply "http://a/x" 404), .push (lit "http://b/1"), .push (lit "http://b/2"),
    .tick fun _ _ => { found := true }, .complete 0 (reply "http://b/1" 200)]

theorem not_robotsCompliant_stale :
    ∃ (l : List (Input × List Event)) (g : GlobalInfo (PriorityQueue.ofList hostKey)),
      (machine plainConfig 1).Run Machine.Free (new _ (fun _ => none) 1) l g ∧
        ¬ g.RobotsCompliant := by
  obtain ⟨l, g, hrun, hp⟩ := Machine.exists_run_of_any
    (M := machine plainConfig 1) (G := Machine.Free)
    (s := new (PriorityQueue.ofList hostKey) (fun _ => none) 1)
    (p := fun x => (x.2.multi 0).any fun t => t.state == .head && t.text == lit "http://b/2" &&
      (x.2.handles 0).robotsEntry.any fun f => f.host != t.request.host)
    staleInputs (fun _ _ _ => trivial) (by decide +kernel)
  refine ⟨l, g, hrun, fun hcomp => ?_⟩
  cases ht : g.multi 0 with
  | none =>
      rw [ht] at hp
      exact absurd hp (by simp)
  | some t =>
      simp only [ht, Option.any_some, Bool.and_eq_true, beq_iff_eq] at hp
      obtain ⟨⟨hst, -⟩, hentry⟩ := hp
      obtain ⟨f, hf, hhost, -⟩ := hcomp 0 t ht hst
      rw [hf] at hentry
      simp [hhost] at hentry

/-! ### With the code's `load_url` -/

/-- All answers are those that the code gives: `Doc::load_url` returns `false`. -/
def NeverFound (_ : GlobalInfo Q) : Input → Prop
  | .push _ => True
  | .tick loads => ∀ id url, (loads id url).found = false
  | .complete _ r => (∀ k url, (r.loads k url).found = false) ∧ ∀ url, (r.load url).found = false

lemma NeverFound.loadsOnHost {i : Input} (h : g.NeverFound i) : g.LoadsOnHost i := by
  cases i with
  | push line => trivial
  | tick loads =>
      intro id _ k _ url hfound
      rw [h id url] at hfound
      exact absurd hfound (by simp)
  | complete id r =>
      intro t _ k _ url hfound
      rw [h.2 url] at hfound
      exact absurd hfound (by simp)

/-- With `Doc::load_url` as it is, every HEAD request is compliant: that it never reports a document
as found hides the stale entries. -/
theorem robotsCompliant_of_neverFound {db : Collection} {l : List (Input × List Event)}
    (h : (machine cfg N).Run NeverFound (new Q db N) l g) : g.RobotsCompliant :=
  fun id t ht hst =>
    ((backedInv_of_run (h.mono fun _ _ hi => hi.loadsOnHost)).backed id t ht).head hst

/-! ### The address of `robots.txt` -/

/-- What the setters leave of the URL of the document. -/
lemma get_robotsUrl {w request : Url} {host : Str} (hclean : Clean urlCharAuth host)
    (hr : EasyHandle.robotsUrl w host = .ok request) :
    request.get = lit "http://" ++ { w with host := host }.authority ++ lit "/robots.txt"
      ++ w.query ++ w.fragment := by
  simp only [EasyHandle.robotsUrl, bind_eq_ok] at hr
  obtain ⟨w₁, hscheme, w₂, hhost, hr⟩ := hr
  have hw₁ : w₁ = { w with scheme := lit "http", hasAuthority := true } := by
    rw [Url.setScheme, if_pos (by decide)] at hscheme
    exact (Except.ok.inj hscheme).symm
  have hw₂ : w₂ = { w₁ with host := host, hasAuthority := true } := by
    simp only [Url.setHost, escape_of_clean hclean] at hhost
    split_ifs at hhost
    exact (Except.ok.inj hhost).symm
  have hpath : ((Path.assign (escape (lit "robots.txt") urlCharPath)).setAbsolute true).get
      = lit "/robots.txt" := by decide
  rw [← Except.ok.inj hr, hw₂, hw₁, Url.setPath]
  have hfront : lit "http://" = lit "http" ++ [Byte.colon] ++ [Byte.slash, Byte.slash] := by decide
  have hscheme : (lit "http").isEmpty = false := by decide
  simp [Url.get, Url.authority, hpath, hfront, hscheme]

/-- The text that is handed to curl for the `robots.txt` of a URL with a host: the query and the
fragment of the URL are still there, so that it is the address of `robots.txt` exactly when the URL
has neither. -/
theorem robots_text_iff {load : Url → Load} {line : Str} {u : Url}
    (hassign : Url.assign line = .ok u) (hhost : u.host ≠ [])
    (hr : EasyHandle.reschedule cfg id load h c = .ok (h', c', some t)) (ht : t.state = .robots)
    (hu : t.origin = u) :
    ∃ v, u.normalize = .ok v ∧
      t.text = lit "http://" ++ v.authority ++ lit "/robots.txt" ++ v.query ++ v.fragment ∧
      (t.text = lit "http://" ++ v.authority ++ lit "/robots.txt" ↔
        u.query = [] ∧ u.fragment = []) := by
  rcases EasyHandle.reschedule_ok hr with ⟨-, -, -, hnone⟩ |
    ⟨u', url, d, t', ht', -, hurl, hd, hreq⟩
  · exact absurd hnone (by simp)
  obtain rfl := Option.some.inj ht'
  cases hreq with
  | head => exact absurd ht (by simp)
  | content => exact absurd ht (by simp)
  | @robots request hst hfound hrobots =>
      obtain rfl : u' = u := hu
      have hacc := Url.accepted_of_assign hassign
      obtain ⟨hauth, hquery, hfragment⟩ := hacc.authority_normalize_twice hhost hurl hd
      have hclean : Clean urlCharAuth url.host := by
        rw [Url.host_normalize hacc hurl]
        exact Url.clean_hostNormal hacc.host_valid
      have htext := get_robotsUrl hclean hrobots
      rw [hauth, hquery, hfragment] at htext
      refine ⟨url, hurl, htext, ?_⟩
      obtain ⟨hq, hf⟩ := hacc.query_normalize hhost hurl
      rw [Transfer.text, htext, ← hq, ← hf]
      simp

/-- An idle handle asks for the `robots.txt` of the front of its queue, if `load_url` finds
nothing. -/
lemma reschedule_robots (cfg : Config) (id : ℕ) (c : UrlClassifier Q) (load : Url → Load)
    {u v w request : Url} {us : List Url} (hn : id ∈ c.table.ns) (hd : c.deques id = u :: us)
    (hv : u.normalize = .ok v) (hw : v.normalize = .ok w) (hload : load v = {})
    (hreq : EasyHandle.robotsUrl w v.host = .ok request) :
    EasyHandle.reschedule cfg id load {} c
      = .ok ({ state := .robots, doc := some { Doc.new cfg.unset with url := request } }, c,
          some { state := .robots, request := request, origin := u }) := by
  have hbusy : EasyHandle.exhausted c id = .ok false := by
    rw [EasyHandle.exhausted, UrlClassifier.emptyAt_of_mem hn, hd]
    split <;> rfl
  have hdoc : (Doc.new cfg.unset).loadWith (load v) v
      = .ok ({ Doc.new cfg.unset with url := w }, false) := by
    rw [Doc.loadWith, hw, hload]
    rfl
  rw [EasyHandle.reschedule, hbusy, UrlClassifier.peek_of_cons hn hd]
  simp only [Call.run_ok, Call.step_ok, ok_bind, Bool.false_eq_true, if_false, hv, hdoc,
    EasyHandle.dispatch, hreq]

/-- The URL `http://u@a:80/x`. -/
def portUrl : Url where
  scheme := lit "http"
  hasAuthority := true
  userinfo := lit "u"
  host := lit "a"
  port := lit "80"
  path := Path.assign (lit "/x")

/-- The userinfo and the port of a URL are in the address of its `robots.txt`. -/
theorem robots_text_iff_port :
    ∃ (c : UrlClassifier (PriorityQueue.ofList hostKey)) (h' : EasyHandle) (t : Transfer),
      Url.assign (lit "http://u@a:80/x") = .ok portUrl ∧
        EasyHandle.reschedule plainConfig 0 (fun _ => {}) {} c = .ok (h', c, some t) ∧
        t.state = .robots ∧ t.origin = portUrl ∧ t.text = lit "http://u@a:80/robots.txt" := by
  have hu : Url.assign (lit "http://u@a:80/x") = .ok portUrl := rfl
  have hnorm : portUrl.normalize = .ok portUrl := rfl
  have hreq : EasyHandle.robotsUrl portUrl portUrl.host
      = .ok { portUrl with path := Path.assign (lit "/robots.txt") } := rfl
  let c : UrlClassifier (PriorityQueue.ofList hostKey) := (UrlClassifier.new _ 1).push portUrl
  have hr := reschedule_robots plainConfig 0 c (fun _ => {}) (by decide) rfl hnorm hnorm rfl hreq
  obtain ⟨v, hv, -, hiff⟩ := robots_text_iff hu (by decide) hr rfl rfl
  obtain rfl := Except.ok.inj (hv.symm.trans hnorm)
  exact ⟨_, _, _, hu, hr, rfl, rfl, hiff.2 ⟨rfl, rfl⟩⟩

/-- The URL `http://a/x?q#f`. -/
def queryUrl : Url where
  scheme := lit "http"
  hasAuthority := true
  host := lit "a"
  path := Path.assign (lit "/x")
  query := lit "?q"
  fragment := lit "#f"

/-- The query and the fragment of a URL stay in the address of its `robots.txt`. -/
theorem not_robots_text_query :
    ∃ (c : UrlClassifier (PriorityQueue.ofList hostKey)) (h' : EasyHandle) (t : Transfer),
      Url.assign (lit "http://a/x?q#f") = .ok queryUrl ∧ queryUrl.normalize = .ok queryUrl ∧
        EasyHandle.reschedule plainConfig 0 (fun _ => {}) {} c = .ok (h', c, some t) ∧
        t.state = .robots ∧ t.origin = queryUrl ∧ t.text = lit "http://a/robots.txt?q#f" ∧
        t.text ≠ lit "http://" ++ queryUrl.authority ++ lit "/robots.txt" := by
  have hnorm : queryUrl.normalize = .ok queryUrl := rfl
  have hreq : EasyHandle.robotsUrl queryUrl queryUrl.host
      = .ok { queryUrl with path := Path.assign (lit "/robots.txt") } := rfl
  let c : UrlClassifier (PriorityQueue.ofList hostKey) := (UrlClassifier.new _ 1).push queryUrl
  have hr := reschedule_robots plainConfig 0 c (fun _ => {}) (by decide) rfl hnorm hnorm rfl hreq
  exact ⟨_, _, _, rfl, hnorm, hr, rfl, rfl, by decide, by decide⟩

end GlobalInfo

end Mycelium
