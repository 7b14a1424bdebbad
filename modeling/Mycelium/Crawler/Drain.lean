import Mycelium.Common.UrlIdempotent
import Mycelium.Crawler.HandleStates

/-!
# The length of a crawl

A URL is done after at most three transfers: the request for `robots.txt`, HEAD and GET.  Hence a
crawl to which no URL is added comes to an end, and what it leaves behind is empty queues.

This rests on the loop of `done` asking for `robots.txt` only when there is no entry.  It also asks
when the host of the URL differs from the one that `Doc::load_url` has put into the document, which
normalizes the URL a second time.  The two differ for a host with an escaped letter in upper case:
then every answer to the request for `robots.txt` leads to the same request, and the handle never
goes on.
-/

namespace Mycelium

open Lib Bson

/-- One summand changes. -/
lemma sum_update {A α β : Type} [AddCommMonoid A] [DecidableEq α] (f : β → A) (g : α → β)
    {s : Finset α} {i : α} (hi : i ∈ s) (v : β) :
    ∑ x ∈ s, f (Function.update g i v x) + f (g i) = ∑ x ∈ s, f (g x) + f v := by
  have hrest : ∀ x ∈ s.erase i, f (Function.update g i v x) = f (g x) :=
    fun x hx => by rw [Function.update_of_ne (Finset.ne_of_mem_erase hx)]
  rw [← Finset.add_sum_erase _ _ hi, ← Finset.add_sum_erase _ _ hi, Finset.sum_congr rfl hrest,
    Function.update_self]
  abel

namespace Url

/-- The URL has a host, and no escape of it stands for a letter in upper case. -/
def PlainHost (u : Url) : Prop := u.host ≠ [] ∧ NoUpperEscape u.host

/-- The second normalization finds the host as the first one has left it exactly when no escape of
it stands for a letter in upper case. -/
lemma host_normalize_twice {line : Str} {u v w : Url} (hu : assign line = .ok u)
    (hhost : u.host ≠ []) (hv : u.normalize = .ok v) (hw : v.normalize = .ok w) :
    w.host = v.host ↔ NoUpperEscape u.host := by
  have hacc := accepted_of_assign hu
  obtain ⟨v', w', hv', hw', -, -, hvh, hwh, -⟩ := hacc.normalize_twice hhost
  obtain rfl := Except.ok.inj (hv.symm.trans hv')
  obtain rfl := Except.ok.inj (hw.symm.trans hw')
  rw [hwh, hvh]
  exact hostNormal_hostNormal_iff hacc.host_valid

end Url

/-! ### The requests of a URL -/

/-- The requests that the URL of a transfer has behind it, or does not need. -/
def Transfer.behind (t : Transfer) : ℕ :=
  match t.state with
  | .head => 1
  | .content => 2
  | .idle | .robots | .next => 0

lemma Transfer.behind_le (t : Transfer) : t.behind ≤ 2 := by
  unfold behind
  split <;> omega

namespace EasyHandle

variable {Q : PriorityQueue hostKey} {cfg : Config} {id : ℕ} {h h' : EasyHandle}
  {c c' : UrlClassifier Q} {d : Doc} {u url : Url} {t : Transfer} {o : Option Transfer}

/-- With an entry, and the host of the URL in the document, the loop does not ask for
`robots.txt`. -/
lemma verdict_ne_robots {f : Fetched} {found : Bool} (hhost : d.url.host = url.host) :
    verdict (some f) d url found ≠ some .robots := by
  unfold verdict
  split
  · simp
  · simp only [hhost, ne_eq, not_true_eq_false, if_false]
    split <;> simp

/-- With an entry, and another host in the document, it asks again. -/
lemma verdict_robots {f : Fetched} (hhost : d.url.host ≠ url.host) :
    verdict (some f) d url false = some .robots := by
  rw [verdict, if_neg (by simp), if_pos hhost]

lemma nextLoop_ne_robots {f : Fetched} {loads : ℕ → Url → Load} {fuel : ℕ} {state : HState}
    {d' : Doc} {us : List Url} (hn : id ∈ c.table.ns)
    (hsteady : ∀ u ∈ c.deques id, ∀ v w, u.normalize = .ok v → v.normalize = .ok w →
      w.host = v.host)
    (hl : nextLoop (some f) id loads fuel d c = .ok (state, d', us, c')) : state ≠ .robots := by
  have hidle : ∀ {d : Doc} {c : UrlClassifier Q} {us : List Url},
      (.ok (.idle, d, [], c) : Except Thrown _) = .ok (state, d', us, c') → state ≠ .robots := by
    intro d c us heq
    rw [← (Prod.mk.inj (Except.ok.inj heq)).1]
    simp
  induction fuel generalizing c d us with
  | zero => exact hidle hl
  | succ fuel ih =>
      cases hd : c.deques id with
      | nil =>
          rw [nextLoop, UrlClassifier.emptyAt_of_mem hn, hd] at hl
          exact hidle hl
      | cons u vs =>
          rw [hd] at hsteady
          simp only [nextLoop_cons fuel hn hd, bind_eq_ok] at hl
          obtain ⟨url, hurl, ⟨d₁, found⟩, hload, hl⟩ := hl
          have hnorm := (Doc.loadWith_ok (Call.run_eq_ok_iff.1 hload)).1
          have hhost := hsteady u (by simp) url d₁.url (Call.run_eq_ok_iff.1 hurl) hnorm
          cases hv : verdict (some f) d₁ url found with
          | some st =>
              simp only [hv] at hl
              rw [← (Prod.mk.inj (Except.ok.inj hl)).1]
              rintro rfl
              exact verdict_ne_robots hhost hv
          | none =>
              simp only [hv, bind_eq_ok] at hl
              obtain ⟨⟨st, d₂, us₂, c₃⟩, hrec, hl⟩ := hl
              obtain ⟨rfl, rfl, -, rfl⟩ : st = state ∧ d₂ = d' ∧ u :: us₂ = us ∧ c₃ = c' := by
                simpa using hl
              refine ih (c := c.setDeque id vs) hn (fun v hv => ?_) hrec
              rw [UrlClassifier.deques_setDeque, Function.update_self] at hv
              exact hsteady v (List.mem_cons_of_mem u hv)

lemma nextUrl_ne_robots {f : Fetched} {loads : ℕ → Url → Load} {us : List Url}
    (hn : id ∈ c.table.ns) (hst : h.state = .next) (hdoc : h.doc = some d)
    (hentry : h.robotsEntry = some f)
    (hsteady : ∀ u ∈ c.deques id, ∀ v w, u.normalize = .ok v → v.normalize = .ok w →
      w.host = v.host)
    (hl : nextUrl id loads h c = .ok (h', us, c')) : h'.state ≠ .robots := by
  simp only [nextUrl, hst, hdoc, hentry, bind_eq_ok] at hl
  obtain ⟨⟨state, d', us', c₁⟩, hloop, hl⟩ := hl
  obtain ⟨rfl, -, -⟩ := ok_triple hl
  exact nextLoop_ne_robots hn hsteady hloop

/-- With another host in the document, the loop asks for `robots.txt` although there is an entry. -/
lemma nextUrl_robots {f : Fetched} {loads : ℕ → Url → Load} {us vs : List Url} {line : Str}
    (hn : id ∈ c.table.ns) (hst : h.state = .next) (hdoc : h.doc = some d)
    (hentry : h.robotsEntry = some f) (hvs : c.deques id = u :: vs)
    (hline : Url.assign line = .ok u) (hup : ¬ Url.NoUpperEscape u.host)
    (hloads : ∀ k url, (loads k url).found = false)
    (hl : nextUrl id loads h c = .ok (h', us, c')) : h'.state = .robots ∧ c' = c := by
  simp only [nextUrl, hst, hdoc, hentry, hvs, List.length_cons, nextLoop_cons vs.length hn hvs,
    bind_eq_ok] at hl
  obtain ⟨⟨state, d', us', c₁⟩, ⟨url, hurl, ⟨d₁, found⟩, hload, hloop⟩, hl⟩ := hl
  obtain ⟨rfl, -, rfl⟩ := ok_triple hl
  obtain ⟨hnorm, rfl⟩ := Doc.loadWith_ok (Call.run_eq_ok_iff.1 hload)
  have hhost : u.host ≠ [] := by
    intro hnil
    rw [hnil] at hup
    exact hup fun a b hab => absurd hab (by simp [tokens])
  have hne := (Url.host_normalize_twice hline hhost (Call.run_eq_ok_iff.1 hurl) hnorm).not.2 hup
  simp only [hloads, verdict_robots hne] at hloop
  obtain ⟨rfl, -, -, rfl⟩ : HState.robots = state ∧ d₁ = d' ∧ [] = us' ∧ c = c₁ := by
    simpa using hloop
  exact ⟨rfl, rfl⟩

/-- A handle with a URL in its queue starts a request for it. -/
lemma exists_request {load : Url → Load} {us : List Url} (hn : id ∈ c.table.ns)
    (hd : c.deques id = u :: us) (hr : reschedule cfg id load h c = .ok (h', c', o)) :
    ∃ url d t, o = some t ∧ c' = c ∧ u.normalize = .ok url ∧ url.normalize = .ok d.url ∧
      Request h (load url).found d u url h' t := by
  rcases reschedule_ok hr with ⟨hex, -⟩ | ⟨u', url, d, t, ho, hpeek, hurl, hnorm, hreq⟩
  · rw [exhausted_of_mem hn, hd] at hex
    exact absurd hex (by simp)
  · rw [UrlClassifier.peek_of_cons hn hd] at hpeek
    obtain ⟨hu, hc⟩ := Prod.mk.inj hpeek
    obtain rfl := Except.ok.inj hu
    exact ⟨url, d, t, ho, hc.symm, hurl, hnorm, hreq⟩

lemma Request.behind {found : Bool} (hreq : Request h found d u url h' t) :
    (h.state = .head → 1 ≤ t.behind) ∧ (h.state = .content → t.behind = 2) := by
  cases hreq with
  | robots hst => rcases hst with hst | hst <;> simp [hst]
  | head hst => simp [Transfer.behind, hst]
  | content => simp [Transfer.behind]

end EasyHandle

namespace GlobalInfo

variable {Q : PriorityQueue hostKey} {cfg : Config} {N id : ℕ} {g g' : GlobalInfo Q}
  {c c' : UrlClassifier Q} {h h' : EasyHandle} {o : Option Transfer} {t : Transfer}
  {log : List Event} {r : Completion}

/-- The requests that the URL of a handle has behind it. -/
def behind (o : Option Transfer) : ℕ := o.elim 0 Transfer.behind

@[simp] lemma behind_none : behind none = 0 := rfl

@[simp] lemma behind_some (t : Transfer) : behind (some t) = t.behind := rfl

/-- A completion brings the URL of the transfer to a later request, or takes a URL away. -/
lemma behind_done {s s' : Shared Q} (hn : id ∈ s.classifier.table.ns)
    (hh : HandleOk h (some t) (s.classifier.deques id))
    (hsteady : ∀ u ∈ s.classifier.deques id, ∀ v w, u.normalize = .ok v → v.normalize = .ok w →
      w.host = v.host)
    (hd : h.done cfg id r s = .ok (h', log, s', o)) :
    t.behind + 1 ≤ 3 * (poppedUrls log).length + behind o := by
  have hserves := hh.serves t rfl
  obtain ⟨vs, hvs⟩ := List.head?_eq_some_iff.1 hserves.front
  obtain ⟨d, d₁, h₁, log₁, s₁, h₂, us, c₂, c₃, -, -, hset, hnext, hres, rfl, -⟩ :=
    EasyHandle.done_ok hd
  cases hset with
  | next hst =>
      -- no transfer is ever started in the state NEXT
      have hcases := hserves.state_cases
      rw [← hserves.state, hst] at hcases
      exact absurd hcases (by simp)
  | accepted hst =>
      obtain ⟨rfl, rfl, rfl⟩ := EasyHandle.nextUrl_of_ne_next (by simp) hnext
      obtain ⟨_, _, t', rfl, -, -, -, hreq⟩ := EasyHandle.exists_request hn hvs hres
      have ht : t.behind = 1 := by rw [Transfer.behind, ← hserves.state, hst]
      have ht' := hreq.behind.2 rfl
      rw [behind_some]
      omega
  | @saved d' db u c hst _ _ =>
      have hlog : poppedUrls ([.saved d', .popped u] ++ us.map .popped) = u :: us :=
        congrArg (u :: ·) (poppedUrls_map us)
      have ht := t.behind_le
      rw [hlog, List.length_cons]
      omega
  | robots hst =>
      have ht : t.behind = 0 := by rw [Transfer.behind, ← hserves.state, hst]
      have hne := EasyHandle.nextUrl_ne_robots hn rfl rfl rfl hsteady hnext
      obtain ⟨state, d', rest, rfl, hto⟩ := EasyHandle.nextUrl_of_next hn rfl rfl hnext
      rw [List.nil_append, poppedUrls_map, ht]
      rcases hto.stop with ⟨-, rfl⟩ | ⟨u, ws, rfl, url, -, hstate⟩
      · -- the whole queue has been refused
        have hus : us = t.origin :: vs := by rw [← hvs, hto.deque, List.append_nil]
        rw [hus, List.length_cons]
        omega
      · have hd₂ : c₂.deques id = u :: ws := by
          rw [hto.classifier, UrlClassifier.deques_setDeque, Function.update_self]
        obtain ⟨_, _, t', rfl, -, -, -, hreq⟩ := EasyHandle.exists_request
          (by rw [hto.classifier]; exact hn) hd₂ hres
        obtain ⟨hhead, hcontent⟩ := hreq.behind
        rw [behind_some]
        rcases hstate with ⟨rfl, -⟩ | rfl | ⟨rfl, -⟩
        · have := hcontent rfl
          omega
        · exact absurd rfl hne
        · have := hhead rfl
          omega

/-! ### The budget of a crawl -/

/-- The requests that the URLs of all handles have behind them. -/
def spent (N : ℕ) (g : GlobalInfo Q) : ℕ := ∑ id ∈ Finset.range N, behind (g.multi id)

/-- The number of transfers that are under way. -/
def underWay (N : ℕ) (g : GlobalInfo Q) : ℕ :=
  ((Finset.range N).filter fun id => (g.multi id).isSome = true).card

/-- A turn of a handle changes its own part. -/
lemma spent_turn {s : Shared Q} (hid : id < N) :
    (g.turn id h s o).spent N + behind (g.multi id) = g.spent N + behind o :=
  sum_update behind g.multi (Finset.mem_range.2 hid) o

lemma spent_le (g : GlobalInfo Q) : g.spent N ≤ 2 * g.underWay N := by
  rw [underWay, Finset.card_filter, Finset.mul_sum]
  refine Finset.sum_le_sum fun id _ => ?_
  cases g.multi id with
  | none => simp
  | some t => simpa using t.behind_le

/-- Each transfer that is under way has its URL in the queue of its handle. -/
lemma Inv.underWay_le (hg : Inv N g) : g.underWay N ≤ g.classifier.size := by
  rw [UrlClassifier.size_eq, UrlClassifier.contents, Multiset.card_add, UrlClassifier.card_held,
    hg.queues.ns, ← List.sum_toFinset _ List.nodup_range, List.toFinset_range, underWay,
    Finset.card_filter]
  refine le_add_left (Finset.sum_le_sum fun id hid => ?_)
  split
  · next hsome =>
      obtain ⟨t, ht⟩ := Option.isSome_iff_exists.1 hsome
      have hfront := ((hg.handles id (Finset.mem_range.1 hid)).serves t ht).front
      obtain ⟨us, hus⟩ := List.head?_eq_some_iff.1 hfront
      rw [hus, List.length_cons]
      omega
  · exact Nat.zero_le _

/-- The scheduler starts requests and takes nothing away. -/
lemma Inv.spent_reschedule {loads : ℕ → Url → Load} (hg : Inv N g)
    (hr : g.reschedule cfg N loads = .ok g') : g.spent N ≤ g'.spent N := by
  have hloop := foldlM_invariant
    (I := fun l g' => (∀ id ∈ l, id < N) ∧ Inv N g' ∧ g.spent N ≤ g'.spent N) ?_ hr
    ⟨fun id hid => List.mem_range.1 hid, hg, le_rfl⟩
  · exact hloop.2.2
  · rintro id l g₁ g₂ ⟨hl, hg₁, hle⟩ hbody
    have hid := hl id (by simp)
    refine ⟨fun m hm => hl m (List.mem_cons_of_mem id hm), (hg₁.rescheduleIdle hid hbody).1, ?_⟩
    have hfree := (hg₁.handles id hid).free
    rcases rescheduleIdle_ok hfree hbody with ⟨-, rfl⟩ | ⟨hst, h', c', o, -, rfl⟩
    · exact hle
    · have hturn := spent_turn (g := g₁) (h := h')
        (s := { g₁.toShared with classifier := c' }) (o := o) hid
      rw [hfree hst, behind_none] at hturn
      omega

/-- The number of transfers that an input completes. -/
def Input.completed : Input → ℕ
  | .push _ => 0
  | .tick _ => 0
  | .complete _ _ => 1

/-- A reaction pays for a completion with a request or with URLs. -/
lemma Inv.spent_step {i : Input} (hg : Inv N g) (hplain : ∀ u ∈ g.classifier.contents, u.PlainHost)
    (hs : g.step cfg N i = .ok (log, g')) :
    g.spent N + i.completed ≤ 3 * (poppedUrls log).length + g'.spent N := by
  cases i with
  | push line =>
      rw [GlobalInfo.step, bind_eq_ok] at hs
      obtain ⟨u, -, hs⟩ := hs
      obtain ⟨-, rfl⟩ := Prod.mk.inj (Except.ok.inj hs)
      exact Nat.le_add_left _ _
  | tick loads =>
      rw [GlobalInfo.step, bind_eq_ok] at hs
      obtain ⟨g₁, hres, hs⟩ := hs
      obtain ⟨-, rfl⟩ := Prod.mk.inj (Except.ok.inj hs)
      exact (hg.spent_reschedule hres).trans (Nat.le_add_left _ _)
  | complete id r =>
      obtain ⟨t, h', s', o, ht, hdone, rfl⟩ := checkRunCount_ok hs
      have hid := hg.lt_of_multi ht
      have hh := hg.handles id hid
      rw [ht] at hh
      have hsteady : ∀ u ∈ g.classifier.deques id, ∀ v w, u.normalize = .ok v →
          v.normalize = .ok w → w.host = v.host := by
        intro u hu v w hv hw
        have hmem := hg.queues.mem_contents hid hu
        obtain ⟨line, hline⟩ := hg.queues.parsed u hmem
        obtain ⟨hhost, hno⟩ := hplain u hmem
        exact (Url.host_normalize_twice hline hhost hv hw).2 hno
      have hpay := behind_done (hg.queues.mem_ns hid) hh hsteady hdone
      have hturn := spent_turn (g := g) (h := h') (s := s') (o := o) hid
      rw [ht, behind_some] at hturn
      rw [Input.completed]
      omega

/-- The condition on the URLs that are pushed. -/
def PlainHosts (_ : GlobalInfo Q) : Input → Prop
  | .push line => ∀ u, Url.assign line = .ok u → u.PlainHost
  | .tick _ => True
  | .complete _ _ => True

lemma plainHost_step {i : Input} (hg : Inv N g) (hi : PlainHosts g i)
    (hplain : ∀ u ∈ g.classifier.contents, u.PlainHost) (hs : g.step cfg N i = .ok (log, g')) :
    ∀ u ∈ g'.classifier.contents, u.PlainHost := by
  intro u hu
  have hmem : u ∈ g.classifier.contents + i.pushed := by
    rw [(hg.step hs).2]
    exact Multiset.mem_add.2 (Or.inr hu)
  rcases Multiset.mem_add.1 hmem with hold | hnew
  · exact hplain u hold
  · cases i with
    | push line =>
        rw [Input.pushed] at hnew
        split at hnew
        · next v hv =>
            rw [Multiset.mem_singleton.1 hnew]
            exact hi v hv
        · exact absurd hnew (Multiset.notMem_zero u)
    | tick loads => exact absurd hnew (Multiset.notMem_zero u)
    | complete id r => exact absurd hnew (Multiset.notMem_zero u)

/-- The transfers that a run completes. -/
def completions (l : List (Input × List Event)) : ℕ := (l.map fun p => p.1.completed).sum

/-- The URLs that a run brings in. -/
def urlsPushed (l : List (Input × List Event)) : Multiset Url := (l.map fun p => p.1.pushed).sum

/-- The balance of a run: what it completes is paid by the URLs that it takes away and by the
requests that the URLs under way have behind them. -/
lemma completions_le {l : List (Input × List Event)} (hg : Inv N g)
    (hplain : ∀ u ∈ g.classifier.contents, u.PlainHost)
    (h : (machine cfg N).Run PlainHosts g l g') :
    completions l + 3 * g'.classifier.size + g.spent N
      ≤ 3 * g.classifier.size + 3 * (urlsPushed l).card + g'.spent N := by
  have hbudget := h.budget (I := fun g => Inv N g ∧ ∀ u ∈ g.classifier.contents, u.PlainHost)
    (fun g => (3 * g.classifier.size : ℤ) - g.spent N) (fun p => 3 * (p.1.pushed.card : ℤ))
    (fun p => (p.1.completed : ℤ)) ?_ ⟨hg, hplain⟩
  · have hout : (l.map fun p => (p.1.completed : ℤ)).sum = (completions l : ℤ) := by
      rw [completions, Nat.cast_list_sum, List.map_map]
      rfl
    have hin : (l.map fun p => 3 * (p.1.pushed.card : ℤ)).sum = 3 * ((urlsPushed l).card : ℤ) := by
      have hcard : (urlsPushed l).card = (l.map fun p => p.1.pushed.card).sum := by
        refine (map_list_sum Multiset.cardHom _).trans ?_
        rw [List.map_map]
        rfl
      rw [List.sum_map_mul_left, hcard, Nat.cast_list_sum, List.map_map]
      rfl
    rw [hout, hin] at hbudget
    omega
  · rintro g i log g' ⟨hg, hplain⟩ hi hexec
    have hs := step_of_machine hexec
    obtain ⟨hg', hsum⟩ := hg.step hs
    refine ⟨⟨hg', plainHost_step hg hi hplain hs⟩, ?_⟩
    have hpay := hg.spent_step hplain hs
    have hcard := congrArg Multiset.card hsum
    rw [Multiset.card_add, Multiset.card_add, ← UrlClassifier.size_eq, ← UrlClassifier.size_eq,
      Multiset.coe_card] at hcard
    simp only
    omega

lemma plain_of_run {db : Collection} {l : List (Input × List Event)}
    (h : (machine cfg N).Run PlainHosts (new Q db N) l g) :
    Inv N g ∧ ∀ u ∈ g.classifier.contents, u.PlainHost := by
  refine h.invariant (I := fun g => Inv N g ∧ ∀ u ∈ g.classifier.contents, u.PlainHost) ?_
    ⟨inv_new db N, ?_⟩
  · rintro g i log g' ⟨hg, hplain⟩ hi hexec
    have hs := step_of_machine hexec
    exact ⟨(hg.step hs).1, plainHost_step hg hi hplain hs⟩
  · intro u hu
    rw [new, UrlClassifier.contents_new] at hu
    exact absurd hu (Multiset.notMem_zero u)

/-- In every run in which the URLs that are pushed have plain hosts, at most three transfers are
completed for each URL that has left the queues and at most two for each URL that a transfer is
under way for; in all, at most three for each URL that was pushed. -/
theorem transfers_le {db : Collection} {l : List (Input × List Event)}
    (h : (machine cfg N).Run PlainHosts (new Q db N) l g) :
    completions l + 3 * g.classifier.size ≤ 3 * (urlsPushed l).card + 2 * g.underWay N ∧
      completions l ≤ 3 * (urlsPushed l).card := by
  have hnil : (new Q db N).classifier.contents = 0 := UrlClassifier.contents_new N
  have hle := completions_le (inv_new db N) (by simp [hnil]) h
  rw [(new Q db N).classifier.size_eq, hnil, Multiset.card_zero] at hle
  have hspent := spent_le (N := N) g
  have hway := (inv_of_run h).underWay_le
  omega

/-- The line of a URL with a plain host. -/
lemma plainHosts_push (g : GlobalInfo Q) : PlainHosts g (.push (lit "http://a/x")) := by
  rintro u hu
  obtain rfl := Except.ok.inj hu
  refine ⟨by decide, fun a b hab => ?_⟩
  have htokens : tokens (lit "a") = [.raw 97] := rfl
  exact absurd (htokens ▸ hab) (by simp)

/-- A URL whose `robots.txt` and HEAD requests are answered with an error. -/
def failing : List Input :=
  [.complete 0 (reply "http://a/robots.txt" 404), .complete 0 (reply "http://a/x" 404)]

/-- Two transfers are completed for a URL that cannot be fetched. -/
theorem transfers_le_failing :
    ∃ (l : List (Input × List Event)) (g : GlobalInfo (PriorityQueue.ofList hostKey)),
      (machine plainConfig 1).Run PlainHosts (new _ (fun _ => none) 1) l g ∧ completions l = 2 ∧
        completions l ≤ 3 * (urlsPushed l).card := by
  obtain ⟨l, g, hrun, hp⟩ := Machine.exists_run_of_any
    (M := machine plainConfig 1) (G := PlainHosts)
    (s := new (PriorityQueue.ofList hostKey) (fun _ => none) 1)
    (p := fun x => completions x.1 == 2)
    (.push (lit "http://a/x") :: .tick (fun _ _ => {}) :: failing)
    (List.forall_mem_cons.2 ⟨plainHosts_push, by simp [failing, PlainHosts]⟩) (by decide +kernel)
  exact ⟨l, g, hrun, by simpa using hp, (transfers_le hrun).2⟩

/-! ### The end of a crawl -/

/-- A handle without a transfer has nothing to do. -/
def Scheduled (N : ℕ) (g : GlobalInfo Q) : Prop :=
  ∀ id < N, g.multi id = none → g.classifier.emptyTop = true ∧ g.classifier.deques id = []

lemma emptyTop_iff (c : UrlClassifier Q) : c.emptyTop = true ↔ Q.elems c.topQ = 0 := by
  rw [UrlClassifier.emptyTop, Option.isNone_iff_eq_none, Q.top?_eq_none_iff]

/-- `reschedule` leaves the other queues alone and takes nothing to `top_q`. -/
lemma frame_reschedule {load : Url → Load} {m : ℕ} (hm : m ≠ id)
    (hr : h.reschedule cfg id load c = .ok (h', c', o)) :
    c'.deques m = c.deques m ∧ (c.emptyTop = true → c'.emptyTop = true) := by
  rcases EasyHandle.reschedule_ok hr with ⟨-, -, rfl, -⟩ | ⟨u, url, d, t, -, hpeek, -, -, -⟩
  · exact ⟨rfl, fun htop => htop⟩
  · have hs := UrlClassifier.step_peek c id
    rw [hpeek] at hs
    have hdrained : ∀ {us : List Url} {q : Q.Carrier}, UrlClassifier.Drained c u.host (u :: us) q →
        c.emptyTop ≠ true := by
      intro us q hd htop
      have hzero := hd.elems
      rw [(emptyTop_iff c).1 htop] at hzero
      exact absurd hzero.symm (by simp)
    cases hs with
    | look => exact ⟨rfl, fun htop => htop⟩
    | refill _ _ hd => exact ⟨Function.update_of_ne hm .., fun htop => absurd htop (hdrained hd)⟩
    | create _ hd => exact ⟨Function.update_of_ne hm .., fun htop => absurd htop (hdrained hd)⟩

/-- After the scheduler every handle without a transfer has nothing to do. -/
lemma Inv.scheduled_reschedule {loads : ℕ → Url → Load} (hg : Inv N g)
    (hr : g.reschedule cfg N loads = .ok g') : Scheduled N g' := by
  have hloop := foldlM_invariant
    (I := fun l g' => (∀ id ∈ l, id < N) ∧ Inv N g' ∧ ∀ id < N, id ∉ l → g'.multi id = none →
      g'.classifier.emptyTop = true ∧ g'.classifier.deques id = []) ?_ hr
    ⟨fun id hid => List.mem_range.1 hid, hg, fun id hid hnot => absurd (List.mem_range.2 hid) hnot⟩
  · exact fun id hid hnone => hloop.2.2 id hid List.not_mem_nil hnone
  · rintro id l g₁ g₂ ⟨hl, hg₁, hdone⟩ hbody
    have hid := hl id (by simp)
    refine ⟨fun m hm => hl m (List.mem_cons_of_mem id hm), (hg₁.rescheduleIdle hid hbody).1, ?_⟩
    intro m hm hml hnone
    have hh := hg₁.handles id hid
    rcases rescheduleIdle_ok hh.free hbody with ⟨hst, rfl⟩ | ⟨hst, h', c', o, hres, rfl⟩
    · by_cases hmid : m = id
      · subst hmid
        exact absurd (hh.idle hnone) hst
      · exact hdone m hm (by simp [hmid, hml]) hnone
    · by_cases hmid : m = id
      · subst hmid
        rw [multi_turn_self] at hnone
        subst hnone
        rcases EasyHandle.reschedule_ok hres with ⟨hex, -, rfl, -⟩ | ⟨_, _, _, _, hsome, -⟩
        · rw [EasyHandle.exhausted_of_mem (hg₁.queues.mem_ns hid), Except.ok.injEq,
            Bool.and_eq_true, List.isEmpty_iff] at hex
          exact hex
        · exact absurd hsome (by simp)
      · rw [multi_turn_of_ne hmid] at hnone
        obtain ⟨htop, hnil⟩ := hdone m hm (by simp [hmid, hml]) hnone
        obtain ⟨hdeq, hkeep⟩ := frame_reschedule hmid hres
        exact ⟨hkeep htop, hdeq.trans hnil⟩

/-- A completion leaves every handle without a transfer with nothing to do. -/
lemma Scheduled.checkRunCount (hsch : Scheduled N g) (hg : Inv N g)
    (hr : g.checkRunCount cfg id r = .ok (log, g')) : Scheduled N g' := by
  intro m hm hnone
  by_cases hmid : m = id
  · subst hmid
    exact hg.exhausted_of_checkRunCount hr hnone
  · obtain ⟨t, h', s', o, h₂, c₂, -, hid, hh, hstage, hres, rfl⟩ := hg.exists_stage hr
    obtain ⟨-, -, rest, -, rfl, -⟩ := hstage.popped hh
    rw [multi_turn_of_ne hmid] at hnone
    obtain ⟨htop, hnil⟩ := hsch m hm hnone
    obtain ⟨hdeq, hkeep⟩ := frame_reschedule hmid hres
    refine ⟨hkeep htop, hdeq.trans ?_⟩
    rw [UrlClassifier.deques_setDeque, Function.update_of_ne hmid]
    exact hnil

/-- Where nothing is under way and no handle has anything to do, nothing is queued. -/
lemma Scheduled.contents_eq_zero (hsch : Scheduled N g) (hg : Inv N g) (hN : 0 < N)
    (hnone : ∀ id, g.multi id = none) : g.classifier.contents = 0 := by
  have htop := (hsch 0 hN (hnone 0)).1
  rw [← Multiset.card_eq_zero, UrlClassifier.contents, Multiset.card_add, (emptyTop_iff _).1 htop,
    UrlClassifier.card_held, hg.queues.ns]
  refine Nat.add_eq_zero_iff.2 ⟨rfl, List.sum_eq_zero fun k hk => ?_⟩
  obtain ⟨id, hid, rfl⟩ := List.mem_map.1 hk
  rw [(hsch id (List.mem_range.1 hid) (hnone id)).2]
  rfl

/-- Transfers are completed, and nothing else happens. -/
def OnlyCompletes (_ : GlobalInfo Q) (i : Input) : Prop := ∃ id r, i = .complete id r

/-- The URLs that a run takes away. -/
def urlsPopped (l : List (Input × List Event)) : Multiset Url :=
  (l.map fun p => (poppedUrls p.2 : Multiset Url)).sum

/-- The balance of the URLs in a run. -/
lemma urlsPopped_add {l : List (Input × List Event)} (hg : Inv N g)
    (h : (machine cfg N).Run Machine.Free g l g') :
    g.classifier.contents + urlsPushed l = urlsPopped l + g'.classifier.contents := by
  have hstep : ∀ (g : GlobalInfo Q) (i : Input) (log : List Event) (g' : GlobalInfo Q), Inv N g →
      (machine cfg N).exec g i = some (log, g') → Inv N g' ∧
        g.classifier.contents + i.pushed
          = (poppedUrls log : Multiset Url) + g'.classifier.contents :=
    fun g i log g' hg hexec => hg.step (step_of_machine hexec)
  have hrun : (machine cfg N).Run (fun g _ => Inv N g) g l g' :=
    h.strengthen (fun g i log g' hg _ hexec => (hstep g i log g' hg hexec).1)
      (fun _ _ hg _ => hg) hg
  exact hrun.conservation (fun g => g.classifier.contents) (fun p => p.1.pushed)
    (fun p => (poppedUrls p.2 : Multiset Url))
    fun g i log g' hg hexec => (hstep g i log g' hg hexec).2

lemma inv_of_onlyCompletes {l : List (Input × List Event)} (hg : Inv N g)
    (h : (machine cfg N).Run OnlyCompletes g l g') : Inv N g' :=
  h.invariant (fun _ _ _ _ hg _ hexec => (hg.step (step_of_machine hexec)).1) hg

lemma balance_of_onlyCompletes {l : List (Input × List Event)}
    (h : (machine cfg N).Run OnlyCompletes g l g') :
    completions l = l.length ∧ urlsPushed l = 0 := by
  have hall : ∀ p ∈ l, ∃ id r, p.1 = .complete id r :=
    (h.forall_iff (I := fun _ => True) (fun _ _ _ _ _ _ _ => ⟨trivial, Iff.rfl⟩) trivial).2 h
  constructor
  · rw [completions, List.map_congr_left (g := fun _ => 1)]
    · simp
    · intro p hp
      obtain ⟨id, r, hi⟩ := hall p hp
      rw [hi]
      rfl
  · refine List.sum_eq_zero fun x hx => ?_
    obtain ⟨p, hp, rfl⟩ := List.mem_map.1 hx
    obtain ⟨id, r, hi⟩ := hall p hp
    simp only [hi, Input.pushed]

/-- After the scheduler has run, the transfers that are completed one after the other are at most
three for each URL in the queues; and when none is under way any more, the URLs that were in the
queues have all been taken away. -/
theorem drains {db : Collection} {l l' : List (Input × List Event)} {loads : ℕ → Url → Load}
    {g₁ g₂ : GlobalInfo Q} (hN : 0 < N) (h : (machine cfg N).Run PlainHosts (new Q db N) l g)
    (htick : g.reschedule cfg N loads = .ok g₁)
    (hrun : (machine cfg N).Run OnlyCompletes g₁ l' g₂) :
    l'.length ≤ 3 * g.classifier.size ∧
      ((∀ id, g₂.multi id = none) →
        g₂.classifier.empty = true ∧ urlsPopped l' = g.classifier.contents) := by
  obtain ⟨hg, hplain⟩ := plain_of_run h
  obtain ⟨hg₁, hcont⟩ := hg.reschedule htick
  have hsize : g₁.classifier.size = g.classifier.size := by
    rw [UrlClassifier.size_eq, hcont, UrlClassifier.size_eq]
  obtain ⟨hlength, hpushed⟩ := balance_of_onlyCompletes hrun
  obtain ⟨hg₂, hsch⟩ : Inv N g₂ ∧ Scheduled N g₂ := by
    refine hrun.invariant (I := fun g => Inv N g ∧ Scheduled N g) ?_
      ⟨hg₁, hg.scheduled_reschedule htick⟩
    rintro g _ log g' ⟨hg, hsch⟩ ⟨id, r, rfl⟩ hexec
    have hs := step_of_machine hexec
    exact ⟨(hg.step hs).1, hsch.checkRunCount hg hs⟩
  constructor
  · have hrun' : (machine cfg N).Run PlainHosts g₁ l' g₂ :=
      hrun.mono (by rintro g _ ⟨id, r, rfl⟩; trivial)
    have hle := completions_le hg₁ (hcont ▸ hplain) hrun'
    have hspent := spent_le (N := N) g₂
    have hway := hg₂.underWay_le
    rw [hlength, hpushed, Multiset.card_zero] at hle
    omega
  · intro hnone
    have hzero := hsch.contents_eq_zero hg₂ hN hnone
    refine ⟨by rw [UrlClassifier.empty_iff, UrlClassifier.size_eq, hzero]; rfl, ?_⟩
    have hsum := urlsPopped_add hg₁ (hrun.mono fun _ _ _ => trivial)
    rw [hpushed, hzero, add_zero, add_zero, hcont] at hsum
    exact hsum.symm

/-- A URL that cannot be fetched leaves empty queues. -/
theorem drains_failing :
    ∃ (l l' : List (Input × List Event)) (g g₂ : GlobalInfo (PriorityQueue.ofList hostKey)),
      (machine plainConfig 1).Run PlainHosts (new _ (fun _ => none) 1) l g ∧
        g.classifier.size = 1 ∧ l'.length = 2 ∧ g₂.classifier.empty = true ∧
        urlsPopped l' = g.classifier.contents := by
  obtain ⟨l, g, hrun, hp⟩ := Machine.exists_run_of_any
    (M := machine plainConfig 1) (G := PlainHosts)
    (s := new (PriorityQueue.ofList hostKey) (fun _ => none) 1)
    (p := fun x => x.2.classifier.size == 1 &&
      (x.2.reschedule plainConfig 1 fun _ _ => {}).toOption.any fun g₁ =>
        ((machine plainConfig 1).runs g₁ failing).any fun y =>
          y.1.length == 2 && (y.2.multi 0).isNone)
    [.push (lit "http://a/x")] (by simpa using plainHosts_push) (by decide +kernel)
  rw [Bool.and_eq_true, beq_iff_eq] at hp
  obtain ⟨hsize, htick⟩ := hp
  cases hg₁ : g.reschedule plainConfig 1 fun _ _ => {} with
  | error e =>
      rw [hg₁] at htick
      exact absurd htick (by simp [Except.toOption])
  | ok g₁ =>
      rw [hg₁] at htick
      obtain ⟨l', g₂, hrun', hp'⟩ := Machine.exists_run_of_any (G := OnlyCompletes) failing
        (by simp [failing, OnlyCompletes]) htick
      rw [Bool.and_eq_true, beq_iff_eq, Option.isNone_iff_eq_none] at hp'
      have hg₂ := inv_of_onlyCompletes ((plain_of_run hrun).1.reschedule hg₁).1 hrun'
      obtain ⟨hempty, hpopped⟩ := (drains (by decide) hrun hg₁ hrun').2 fun id => by
        cases id with
        | zero => exact hp'.2
        | succ id => exact hg₂.outside _ (by omega)
      exact ⟨l, l', g, g₂, hrun, hsize, hp'.1, hempty, hpopped⟩

/-! ### A host that `robots.txt` is requested for again and again -/

/-- `Doc::load_url` finds nothing. -/
def NothingFound (_ : GlobalInfo Q) : Input → Prop
  | .push _ => True
  | .tick loads => ∀ id url, (loads id url).found = false
  | .complete _ r => (∀ k url, (r.loads k url).found = false) ∧ ∀ url, (r.load url).found = false

/-- The handle `id` waits for the `robots.txt` of `u`, the first of the URLs `q` at the front of its
queue. -/
def Asks (g : GlobalInfo Q) (id : ℕ) (u : Url) (q : List Url) : Prop :=
  ∃ t us, g.multi id = some t ∧ t.state = .robots ∧ t.origin = u ∧ g.classifier.deques id = q ++ us

/-- What another handle does leaves the handle `id` as it is. -/
lemma Asks.turn {u : Url} {q : List Url} {m : ℕ} {s : Shared Q} (ha : g.Asks id u q) (hm : id ≠ m)
    (hd : s.classifier.deques id = g.classifier.deques id) : (g.turn m h s o).Asks id u q := by
  obtain ⟨t, us, ht, hst, hu, hq⟩ := ha
  exact ⟨t, us, by rw [multi_turn_of_ne hm, ht], hst, hu, hd.trans hq⟩

/-- A push adds to the queue at its end. -/
lemma Asks.push {u v : Url} {q : List Url} (ha : g.Asks id u q)
    (hne : g.classifier.deques id ≠ []) :
    Asks { g with classifier := g.classifier.push v } id u q := by
  obtain ⟨t, us, ht, hst, hu, hq⟩ := ha
  have hs := UrlClassifier.step_push g.classifier v
  suffices hlonger : ∃ vs, (g.classifier.push v).deques id = g.classifier.deques id ++ vs by
    obtain ⟨vs, hvs⟩ := hlonger
    refine ⟨t, us ++ vs, ht, hst, hu, ?_⟩
    rw [← List.append_assoc, ← hq]
    exact hvs
  generalize g.classifier.push v = c' at hs
  cases hs with
  | @known _ i _ =>
      by_cases hid : id = i.n
      · subst hid
        exact ⟨[v], by rw [UrlClassifier.deques_setDeque, Function.update_self]⟩
      · refine ⟨[], ?_⟩
        rw [UrlClassifier.deques_setDeque, Function.update_of_ne hid, List.append_nil]
  | @claim _ n _ _ hnil =>
      have hid : id ≠ n := fun he => hne (he ▸ hnil)
      refine ⟨[], ?_⟩
      rw [List.append_nil]
      exact Function.update_of_ne hid ..
  | park => exact ⟨[], (List.append_nil _).symm⟩

lemma Asks.reschedule {u : Url} {q : List Url} {loads : ℕ → Url → Load} (ha : g.Asks id u q)
    (hg : Inv N g) (hid : id < N) (hr : g.reschedule cfg N loads = .ok g') : g'.Asks id u q := by
  have hloop := foldlM_invariant
    (I := fun l g' => (∀ m ∈ l, m < N) ∧ Inv N g' ∧ g'.Asks id u q) ?_ hr
    ⟨fun m hm => List.mem_range.1 hm, hg, ha⟩
  · exact hloop.2.2
  · rintro m l g₁ g₂ ⟨hl, hg₁, ha₁⟩ hbody
    have hm := hl m (by simp)
    refine ⟨fun k hk => hl k (List.mem_cons_of_mem m hk), (hg₁.rescheduleIdle hm hbody).1, ?_⟩
    rcases rescheduleIdle_ok (hg₁.handles m hm).free hbody with
      ⟨-, rfl⟩ | ⟨hst, h', c', o, hres, rfl⟩
    · exact ha₁
    · have hne : id ≠ m := by
        -- a handle with a transfer is not idle
        rintro rfl
        obtain ⟨t, us, ht, -⟩ := ha₁
        exact absurd (((hg₁.handles id hid).free hst).symm.trans ht) (by simp)
      exact ha₁.turn hne (frame_reschedule hne hres).1

/-- The answer to the request for `robots.txt` leads to the same request. -/
lemma asks_done {s s' : Shared Q} {line : Str} (hn : id ∈ s.classifier.table.ns)
    (hh : HandleOk h (some t) (s.classifier.deques id)) (hst : t.state = .robots)
    (hline : Url.assign line = .ok t.origin) (hup : ¬ Url.NoUpperEscape t.origin.host)
    (hloads : ∀ k url, (r.loads k url).found = false) (hload : ∀ url, (r.load url).found = false)
    (hd : h.done cfg id r s = .ok (h', log, s', o)) :
    ∃ t', o = some t' ∧ t'.state = .robots ∧ t'.origin = t.origin ∧
      s'.classifier = s.classifier := by
  have hserves := hh.serves t rfl
  obtain ⟨vs, hvs⟩ := List.head?_eq_some_iff.1 hserves.front
  obtain ⟨d, d₁, h₁, log₁, s₁, h₂, us, c₂, c₃, -, -, hset, hnext, hres, rfl, rfl⟩ :=
    EasyHandle.done_ok hd
  rw [← hserves.state] at hst
  cases hset with
  | next hst' => exact absurd (hst.symm.trans hst') (by simp)
  | accepted hst' => exact absurd (hst.symm.trans hst') (by simp)
  | saved hst' => exact absurd hst' (by simp [hst])
  | robots _ =>
      have hstays := EasyHandle.nextUrl_robots hn rfl rfl rfl hvs hline hup hloads hnext
      obtain ⟨hst₂, rfl⟩ := hstays
      obtain ⟨url, d₂, t', rfl, rfl, -, -, hreq⟩ := EasyHandle.exists_request hn hvs hres
      refine ⟨t', rfl, ?_⟩
      cases hreq with
      | robots => exact ⟨rfl, rfl, rfl⟩
      | head hst' => exact absurd (hst₂.symm.trans hst') (by simp)
      | content hor =>
          rcases hor with hst' | hfound
          · exact absurd (hst₂.symm.trans hst') (by simp)
          · exact absurd ((hload url).symm.trans hfound) (by simp)

lemma Asks.step {u : Url} {q : List Url} {i : Input} (ha : g.Asks id u q) (hg : Inv N g)
    (hup : ¬ Url.NoUpperEscape u.host) (hi : NothingFound g i)
    (hs : g.step cfg N i = .ok (log, g')) : g'.Asks id u q := by
  obtain ⟨t, us, ht, hst, rfl, hq⟩ := ha
  have hid := hg.lt_of_multi ht
  have hh := hg.handles id hid
  rw [ht] at hh
  have hfront := (hh.serves t rfl).front
  have ha : g.Asks id t.origin q := ⟨t, us, ht, hst, rfl, hq⟩
  cases i with
  | push line =>
      rw [GlobalInfo.step, bind_eq_ok] at hs
      obtain ⟨v, -, hs⟩ := hs
      obtain ⟨-, rfl⟩ := Prod.mk.inj (Except.ok.inj hs)
      exact ha.push fun hnil => absurd hfront (by simp [hnil])
  | tick loads =>
      rw [GlobalInfo.step, bind_eq_ok] at hs
      obtain ⟨g₁, hres, hs⟩ := hs
      obtain ⟨-, rfl⟩ := Prod.mk.inj (Except.ok.inj hs)
      exact ha.reschedule hg hid hres
  | complete m r =>
      by_cases hm : id = m
      · subst hm
        obtain ⟨t₀, h', s', o, ht₀, hdone, rfl⟩ := checkRunCount_ok hs
        obtain ⟨line, hline⟩ := hg.queues.parsed _
          (hg.queues.mem_contents hid (List.mem_of_head? hfront))
        obtain ⟨t', rfl, hst', hu', hc⟩ :=
          asks_done (hg.queues.mem_ns hid) hh hst hline hup hi.1 hi.2 hdone
        exact ⟨t', us, multi_turn_self, hst', hu', (congrArg (·.deques id) hc).trans hq⟩
      · obtain ⟨t₀, h', s', o, h₂, c₂, -, hm', hh', hstage, hres, rfl⟩ := hg.exists_stage hs
        obtain ⟨-, -, rest, -, rfl, -⟩ := hstage.popped hh'
        refine ha.turn hm ((frame_reschedule hm hres).1.trans ?_)
        rw [UrlClassifier.deques_setDeque, Function.update_of_ne hm]

/-- When `robots.txt` is requested for a URL one of whose escapes of the host stands for a letter in
upper case, then in every run in which `Doc::load_url` finds nothing the handle goes on requesting
it, and the URLs of its queue stay there. -/
theorem robots_again {db : Collection} {l l' : List (Input × List Event)}
    (h : (machine cfg N).Run Machine.Free (new Q db N) l g) (ht : g.multi id = some t)
    (hst : t.state = .robots) (hup : ¬ Url.NoUpperEscape t.origin.host)
    (hrun : (machine cfg N).Run NothingFound g l' g') :
    ∃ t' us, g'.multi id = some t' ∧ t'.state = .robots ∧ t'.origin = t.origin ∧
      g'.classifier.deques id = g.classifier.deques id ++ us := by
  have hinv : Inv N g' ∧ g'.Asks id t.origin (g.classifier.deques id) := by
    refine hrun.invariant
      (I := fun g' => Inv N g' ∧ g'.Asks id t.origin (g.classifier.deques id)) ?_
      ⟨inv_of_run h, t, [], ht, hst, rfl, (List.append_nil _).symm⟩
    rintro g₁ i log g₂ ⟨hg₁, ha⟩ hi hexec
    have hs := step_of_machine hexec
    exact ⟨(hg₁.step hs).1, ha.step hg₁ hup hi hs⟩
  exact hinv.2

/-- The request for the `robots.txt` of `http://%41/x` has been answered twice, and is under way. -/
theorem robots_again_upper :
    ∃ (l l' : List (Input × List Event)) (g g' : GlobalInfo (PriorityQueue.ofList hostKey))
      (t t' : Transfer) (us : List Url),
      (machine plainConfig 1).Run Machine.Free (new _ (fun _ => none) 1) l g ∧
        (machine plainConfig 1).Run NothingFound g l' g' ∧ l'.length = 2 ∧ g.multi 0 = some t ∧
        t.origin.host = lit "%41" ∧ g'.multi 0 = some t' ∧ t'.state = .robots ∧
        t'.origin = t.origin ∧ g'.classifier.deques 0 = g.classifier.deques 0 ++ us := by
  obtain ⟨l, g, hrun, hp⟩ := Machine.exists_run_of_any
    (M := machine plainConfig 1) (G := Machine.Free)
    (s := new (PriorityQueue.ofList hostKey) (fun _ => none) 1)
    (p := fun x => (x.2.multi 0).any (fun t => t.state == .robots && t.origin.host == lit "%41") &&
      ((machine plainConfig 1).runs x.2 (List.replicate 2
        (.complete 0 (reply "http://a/robots.txt" 404)))).any fun y => y.1.length == 2)
    [.push (lit "http://%41/x"), .tick fun _ _ => {}] (fun _ _ _ => trivial) (by decide +kernel)
  rw [Bool.and_eq_true] at hp
  obtain ⟨l', g', hrun', hlen⟩ := Machine.exists_run_of_any (G := NothingFound) _
    (fun i hi g => by rw [List.eq_of_mem_replicate hi]; exact ⟨fun _ _ => rfl, fun _ => rfl⟩) hp.2
  cases ht : g.multi 0 with
  | none =>
      rw [ht] at hp
      exact absurd hp.1 (by simp)
  | some t =>
      rw [ht] at hp
      obtain ⟨hst, hhost⟩ : t.state = .robots ∧ t.origin.host = lit "%41" := by simpa using hp.1
      have hup : ¬ Url.NoUpperEscape t.origin.host := by
        rw [hhost]
        exact fun hno => absurd (hno 52 49 (by decide)) (by decide)
      obtain ⟨t', us, ht', hst', hu', hq⟩ := robots_again hrun ht hst hup hrun'
      exact ⟨l, l', g, g', t, t', us, hrun, hrun', by simpa using hlen, ht, hhost, ht', hst', hu',
        hq⟩

end GlobalInfo

end Mycelium
