import Mycelium.Crawler.Drain
import Mycelium.Crawler.InputBuffer

/-!
# The crawler with its connections

Clients connect, send their URLs in any pieces and close the connection, while the scheduler and the
completed transfers move the URLs on.  Whatever the order, the lines of one connection are not mixed
with those of another, and every URL of every stream ends in one of three ways: a document was saved
for it, the `robots.txt` of its handle refuses it, or it is still queued.
-/

namespace Mycelium

open Lib Bson

namespace GlobalInfo

variable {Q : PriorityQueue hostKey} {cfg : Config} {N id : ℕ} {g g' : GlobalInfo Q}
  {log log' : List Event} {r : Completion} {l : List (GlobalInfo.Input × List Event)}

/-! ### The log of a crawl -/

/-- The documents that were saved. -/
def savedDocs (log : List Event) : List Doc :=
  log.filterMap fun
    | .saved d => some d
    | .popped _ => none

lemma poppedUrls_append (log log' : List Event) :
    poppedUrls (log ++ log') = poppedUrls log ++ poppedUrls log' := List.filterMap_append

lemma savedDocs_append (log log' : List Event) :
    savedDocs (log ++ log') = savedDocs log ++ savedDocs log' := List.filterMap_append

lemma savedDocs_map (us : List Url) : savedDocs (us.map .popped) = [] := by
  rw [savedDocs, List.filterMap_map]
  exact List.filterMap_eq_nil_iff.2 fun _ _ => rfl

/-- `m_ndocs_saved` counts the documents. -/
lemma ndocsSaved_done {h h' : EasyHandle} {s s' : Shared Q} {o : Option Transfer}
    (hd : h.done cfg id r s = .ok (h', log, s', o)) :
    s'.ndocsSaved = s.ndocsSaved + (savedDocs log).length := by
  obtain ⟨d, d₁, h₁, log₁, s₁, h₂, us, c₂, c₃, -, -, hset, -, -, rfl, rfl⟩ := EasyHandle.done_ok hd
  rw [savedDocs_append, savedDocs_map, List.append_nil]
  cases hset <;> rfl

lemma Inv.ndocsSaved_reschedule {loads : ℕ → Url → Load} (hg : Inv N g)
    (hr : g.reschedule cfg N loads = .ok g') : g'.ndocsSaved = g.ndocsSaved := by
  have hloop := foldlM_invariant
    (I := fun l g' => (∀ id ∈ l, id < N) ∧ Inv N g' ∧ g'.ndocsSaved = g.ndocsSaved) ?_ hr
    ⟨fun id hid => List.mem_range.1 hid, hg, rfl⟩
  · exact hloop.2.2
  · rintro id l g₁ g₂ ⟨hl, hg₁, hsame⟩ hbody
    have hid := hl id (by simp)
    refine ⟨fun m hm => hl m (List.mem_cons_of_mem id hm), (hg₁.rescheduleIdle hid hbody).1, ?_⟩
    rcases rescheduleIdle_ok (hg₁.handles id hid).free hbody with
      ⟨-, rfl⟩ | ⟨-, h', c', o, -, rfl⟩
    · exact hsame
    · exact hsame

/-- Every reaction counts the documents that it saves. -/
lemma Inv.ndocsSaved_step {i : GlobalInfo.Input} (hg : Inv N g)
    (hs : g.step cfg N i = .ok (log, g')) :
    g'.ndocsSaved = g.ndocsSaved + (savedDocs log).length := by
  cases i with
  | push line =>
      rw [GlobalInfo.step, bind_eq_ok] at hs
      obtain ⟨u, -, hs⟩ := hs
      obtain ⟨rfl, rfl⟩ := Prod.mk.inj (Except.ok.inj hs)
      rfl
  | tick loads =>
      rw [GlobalInfo.step, bind_eq_ok] at hs
      obtain ⟨g₁, hres, hs⟩ := hs
      obtain ⟨rfl, rfl⟩ := Prod.mk.inj (Except.ok.inj hs)
      exact hg.ndocsSaved_reschedule hres
  | complete id r =>
      obtain ⟨t, h', s', o, -, hdone, rfl⟩ := checkRunCount_ok hs
      exact ndocsSaved_done hdone

end GlobalInfo

/-! ### The input of one connection -/

namespace Connection

variable {Q : PriorityQueue hostKey} {k : Connection Q} {t : Str}

/-- A text without separators is left over as it is. -/
lemma urlsFrom_leftover (t : Str) : urlsFrom [] (urlsFrom [] t).2 = ([], (urlsFrom [] t).2) := by
  have hfree := not_separator_leftover isSeparator t
  rw [urlsFrom_nil t, urlsFrom_nil, lines_of_forall hfree, leftover_of_forall hfree]
  rfl

lemma exists_line_of_mem {u : Url} (hu : u ∈ (urlsFrom [] t).1) :
    ∃ line, Url.assign line = .ok u := by
  rw [urlsFrom_nil, List.mem_flatMap] at hu
  obtain ⟨line, -, hu⟩ := hu
  rw [Option.mem_toList, lineUrl] at hu
  split at hu
  · exact ⟨line, ok_of_toOption (Option.filter_eq_some_iff.1 hu).1⟩
  · exact absurd hu (by simp)

/-- The buffer alone tells what a connection makes of the next bytes. -/
lemma hasRead_buff (hbuff : k.inputBuff = (urlsFrom [] t).2) :
    k.HasRead k.classifier k.inputBuff := by
  have hrest := urlsFrom_leftover t
  rw [← hbuff] at hrest
  exact ⟨by rw [hrest], by rw [hrest]; rfl⟩

/-- A connection that has read `t` reads `b`. -/
lemma read_eq (hbuff : k.inputBuff = (urlsFrom [] t).2) (b : Str) :
    ∃ k' us, k.read b = .ok k' ∧ k'.inputBuff = (urlsFrom [] (t ++ b)).2 ∧
      k'.classifier = pushAll k.classifier us ∧ (∀ u ∈ us, ∃ line, Url.assign line = .ok u) ∧
      streamUrls (t ++ b) false = streamUrls t false ++ us := by
  obtain ⟨k', hk', hread⟩ := (hasRead_buff hbuff).read b
  refine ⟨k', _, hk', ?_, hread.classifier, fun u hu => exists_line_of_mem hu, ?_⟩
  · rw [hread.buff, hbuff, urlsFrom_append t b]
  · simp [streamUrls, urlsFrom_append t b, hbuff]

/-- A connection that has read `t` comes to its end. -/
lemma flush_eq (hbuff : k.inputBuff = (urlsFrom [] t).2) :
    ∃ k' us, k.processInputBuff true = .ok k' ∧ k'.classifier = pushAll k.classifier us ∧
      (∀ u ∈ us, ∃ line, Url.assign line = .ok u) ∧
      streamUrls t true = streamUrls t false ++ us := by
  obtain ⟨k', hk', hclass⟩ := (hasRead_buff hbuff).flush
  refine ⟨k', streamUrls k.inputBuff true, hk', hclass, ?_, ?_⟩
  · intro u hu
    rw [hbuff, streamUrls, urlsFrom_leftover, List.nil_append] at hu
    split at hu
    · exact ⟨_, ok_of_toOption (Option.mem_toList.1 hu)⟩
    · exact absurd hu List.not_mem_nil
  · simp [streamUrls, hbuff, urlsFrom_leftover]

end Connection

namespace GlobalInfo

variable {Q : PriorityQueue hostKey} {N : ℕ} {g : GlobalInfo Q}

/-- URLs that were parsed are pushed in turn. -/
lemma Inv.pushAll {us : List Url} (hg : Inv N g) (hus : ∀ u ∈ us, ∃ line, Url.assign line = .ok u) :
    Inv N { g with classifier := Connection.pushAll g.classifier us } ∧
      (Connection.pushAll g.classifier us).contents
        = g.classifier.contents + (us : Multiset Url) := by
  induction us generalizing g with
  | nil => exact ⟨hg, (add_zero _).symm⟩
  | cons u us ih =>
      obtain ⟨⟨line, hline⟩, hrest⟩ := List.forall_mem_cons.1 hus
      obtain ⟨hg', hcont⟩ := ih (hg.push hline) hrest
      refine ⟨hg', hcont.trans ?_⟩
      have hsum := UrlClassifier.step_contents (UrlClassifier.step_push g.classifier u)
      simp only [UrlClassifier.pushedBy, UrlClassifier.poppedBy, zero_add] at hsum
      rw [← hsum, add_assoc, Multiset.singleton_add]
      rfl

end GlobalInfo

/-! ### The server -/

/-- The part of `GlobalInfo::Connection` that is its own. -/
structure Client where
  inputBuff : Str := []
  numUrls : ℕ := 0

/-- `GlobalInfo` with its connections, by descriptor. -/
structure Server (Q : PriorityQueue hostKey) extends GlobalInfo Q where
  connections : ℕ → Option Client

namespace Server

variable {Q : PriorityQueue hostKey}

/-- `GlobalInfo(parallel, port)` on a database. -/
def new (Q : PriorityQueue hostKey) (db : Collection) (parallel : ℕ) : Server Q where
  toGlobalInfo := GlobalInfo.new Q db parallel
  connections := fun _ => none

/-- `FD_SETSIZE`. -/
def fdSetsize : ℕ := 1024

/-- `accept_cb`, with the descriptor that `utils::Accept` returns; `none` is `EAGAIN`. -/
def acceptCb (s : Server Q) : Option ℕ → Except Thrown (Server Q)
  | none => .ok s
  | some fd =>
      if fd > fdSetsize then
        -- `accept` closes the descriptor, the destructor closes it again and fails
        .error { call := .state, exn := .runtimeError (lit "close") }
      else
        -- `connections.erase` takes a stale connection away
        .ok { s with connections := Function.update s.connections fd (some {}) }

/-- `connection_read_cb` on the descriptor `fd`, after a `read` that has given the bytes `b`. -/
def readCb (s : Server Q) (fd : ℕ) (b : Str) : Except Thrown (Server Q) :=
  match s.connections fd with
  | none => .error { call := .state, exn := .logicError (lit "no connection") }
  | some k => do
      let k ← Call.url.run (Connection.readCb
        { inputBuff := k.inputBuff, numUrls := k.numUrls, classifier := s.classifier } b)
      let client : Option Client :=
        -- at the end of the input the connection is erased
        if b.isEmpty then none else some { inputBuff := k.inputBuff, numUrls := k.numUrls }
      .ok { s with
        classifier := k.classifier, connections := Function.update s.connections fd client }

/-- What the server reacts to. -/
inductive Input where
  /-- A client connects. -/
  | accept (fd : Option ℕ)
  /-- Bytes have arrived on a descriptor; none at the end of the input. -/
  | read (fd : ℕ) (b : Str)
  /-- `scheduler_cb` or the command `reschedule`. -/
  | tick (loads : ℕ → Url → Load)
  /-- The completion of the transfer of a handle. -/
  | complete (id : ℕ) (r : Completion)

/-- A reaction of the crawl. -/
def ofCrawl (s : Server Q) (r : Except Thrown (List Event × GlobalInfo Q)) :
    Except Thrown (List Event × Server Q) := do
  let (log, g) ← r
  .ok (log, { s with toGlobalInfo := g })

/-- The reaction to an input, with what happens to the database and to the queues. -/
def step (cfg : Config) (N : ℕ) (s : Server Q) : Input → Except Thrown (List Event × Server Q)
  | .accept fd => do
      let s ← s.acceptCb fd
      .ok ([], s)
  | .read fd b => do
      let s ← s.readCb fd b
      .ok ([], s)
  | .tick loads => s.ofCrawl (s.toGlobalInfo.step cfg N (.tick loads))
  | .complete id r => s.ofCrawl (s.toGlobalInfo.step cfg N (.complete id r))

/-- The server as a machine; it stops at an exception. -/
def machine (cfg : Config) (N : ℕ) : Machine (Server Q) Input (List Event) where
  exec s i := (s.step cfg N i).toOption

/-- The kernel gives a new connection a descriptor that is not in use. -/
def Fresh (s : Server Q) : Input → Prop
  | .accept (some fd) => s.connections fd = none
  | .accept none => True
  | .read _ _ => True
  | .tick _ => True
  | .complete _ _ => True

instance (s : Server Q) (i : Input) : Decidable (s.Fresh i) :=
  match i with
  | .accept (some fd) => inferInstanceAs (Decidable (s.connections fd = none))
  | .accept none => inferInstanceAs (Decidable True)
  | .read _ _ => inferInstanceAs (Decidable True)
  | .tick _ => inferInstanceAs (Decidable True)
  | .complete _ _ => inferInstanceAs (Decidable True)

/-! ### What the clients have sent -/

/-- The bytes that have come in, by connection: on the descriptors in use, and on the connections
that were closed; and the log. -/
structure History where
  live : ℕ → Str := fun _ => []
  ended : List Str := []
  log : List Event := []

namespace History

def next (H : History) : Input × List Event → History
  | (.accept fd, _) =>
      match fd with
      | some fd => { H with live := Function.update H.live fd [] }
      | none => H
  | (.read fd b, _) =>
      if b.isEmpty then
        { H with live := Function.update H.live fd [], ended := H.ended ++ [H.live fd] }
      else { H with live := Function.update H.live fd (H.live fd ++ b) }
  | (.tick _, log) => { H with log := H.log ++ log }
  | (.complete _ _, log) => { H with log := H.log ++ log }

/-- The URLs of the streams, each read on its own. -/
def urls (H : History) : Multiset Url :=
  (H.ended.map fun s => (Connection.streamUrls s true : Multiset Url)).sum +
    ∑ fd ∈ Finset.range (fdSetsize + 1), (Connection.streamUrls (H.live fd) false : Multiset Url)

end History

/-- The history of a run. -/
def history (l : List (Input × List Event)) : History := l.foldl History.next {}

variable {cfg : Config} {N : ℕ} {s s' : Server Q} {H : History} {i : Input} {log : List Event}

lemma step_of_machine (hexec : (machine cfg N).exec s i = some (log, s')) :
    s.step cfg N i = .ok (log, s') := ok_of_toOption hexec

namespace History

variable {fd : ℕ} {us : List Url}

/-- A stream is replaced by another one. -/
lemma urls_update (H : History) (hfd : fd ≤ fdSetsize) (t : Str) :
    { H with live := Function.update H.live fd t }.urls
        + (Connection.streamUrls (H.live fd) false : Multiset Url)
      = H.urls + (Connection.streamUrls t false : Multiset Url) := by
  have hmem : fd ∈ Finset.range (fdSetsize + 1) := Finset.mem_range.2 (Nat.lt_succ_of_le hfd)
  have hsum := sum_update (fun t => (Connection.streamUrls t false : Multiset Url)) H.live hmem t
  simp only [urls, add_assoc]
  rw [hsum]

/-- The URLs of the bytes `b` are added. -/
lemma urls_read (hfd : fd ≤ fdSetsize) {b : Str} (hb : b.isEmpty = false)
    (hus : Connection.streamUrls (H.live fd ++ b) false
      = Connection.streamUrls (H.live fd) false ++ us) :
    (H.next (.read fd b, [])).urls = H.urls + (us : Multiset Url) := by
  have hsum := urls_update H hfd (H.live fd ++ b)
  rw [hus, ← Multiset.coe_add, add_left_comm, add_comm] at hsum
  simp only [next, hb]
  exact add_left_cancel hsum

/-- The URLs of the line that is flushed are added. -/
lemma urls_end (hfd : fd ≤ fdSetsize)
    (hus : Connection.streamUrls (H.live fd) true = Connection.streamUrls (H.live fd) false ++ us) :
    (H.next (.read fd [], [])).urls = H.urls + (us : Multiset Url) := by
  have hsum := urls_update H hfd []
  have hnil : (Connection.streamUrls [] false : Multiset Url) = 0 := rfl
  rw [hnil, add_zero] at hsum
  rw [← hsum]
  simp only [next, urls, List.isEmpty_nil, if_true, List.map_append, List.map_cons, List.map_nil,
    List.sum_append, List.sum_cons, List.sum_nil, hus, ← Multiset.coe_add]
  abel

end History

/-- Every connection holds the unfinished line of its own stream, and nothing is left of a
connection that was closed. -/
structure Connected (connections : ℕ → Option Client) (live : ℕ → Str) : Prop where
  closed : ∀ fd, connections fd = none → live fd = []
  small : ∀ fd k, connections fd = some k → fd ≤ fdSetsize
  buff : ∀ fd k, connections fd = some k → k.inputBuff = (Connection.urlsFrom [] (live fd)).2

/-- One connection changes. -/
lemma Connected.update {connections : ℕ → Option Client} {live : ℕ → Str} {fd : ℕ}
    {o : Option Client} {t : Str} (h : Connected connections live) (hnone : o = none → t = [])
    (hsome : ∀ k, o = some k → fd ≤ fdSetsize ∧ k.inputBuff = (Connection.urlsFrom [] t).2) :
    Connected (Function.update connections fd o) (Function.update live fd t) := by
  refine ⟨fun m => ?_, fun m => ?_, fun m => ?_⟩ <;> by_cases hm : m = fd
  · subst hm
    simpa using hnone
  · simpa [hm] using h.closed m
  · subst hm
    simpa using fun k hk => (hsome k hk).1
  · simpa [hm] using h.small m
  · subst hm
    simpa using fun k hk => (hsome k hk).2
  · simpa [hm] using h.buff m

open GlobalInfo in
/-- What holds between the callbacks, when the history is `H`. -/
structure Follows (N : ℕ) (s : Server Q) (H : History) : Prop where
  inv : Inv N s.toGlobalInfo
  connected : Connected s.connections H.live
  balance : H.urls = (poppedUrls H.log : Multiset Url) + s.classifier.contents
  saved : s.ndocsSaved = (savedDocs H.log).length

namespace Follows

lemma init (db : Collection) (N : ℕ) : Follows N (new Q db N) {} where
  inv := GlobalInfo.inv_new db N
  connected := ⟨fun _ _ => rfl, fun _ _ h => absurd h (by simp [new]),
    fun _ _ h => absurd h (by simp [new])⟩
  balance := by
    have hnil : (new Q db N).classifier.contents = 0 := UrlClassifier.contents_new N
    rw [hnil]
    simp [History.urls, Connection.streamUrls, Connection.urlsFrom, GlobalInfo.poppedUrls]
  saved := rfl

/-- A new connection has sent nothing. -/
lemma acceptCb {fd : Option ℕ} (hf : Follows N s H) (hfresh : s.Fresh (.accept fd))
    (hs : s.acceptCb fd = .ok s') : Follows N s' (H.next (.accept fd, [])) := by
  cases fd with
  | none =>
      obtain rfl := Except.ok.inj hs
      exact hf
  | some fd =>
      rw [Server.acceptCb] at hs
      split at hs
      · exact absurd hs (by simp)
      · next hsmall =>
          obtain rfl := Except.ok.inj hs
          have hsame : Function.update H.live fd [] = H.live :=
            Function.update_eq_self_iff.2 (hf.connected.closed fd hfresh).symm
          refine ⟨hf.inv, ?_, ?_, hf.saved⟩
          · refine hf.connected.update (fun _ => rfl) ?_
            rintro k ⟨rfl⟩
            exact ⟨Nat.le_of_not_lt hsmall, rfl⟩
          · simp only [History.next, hsame]
            exact hf.balance

/-- What is read on a connection goes to its own stream. -/
lemma readCb {fd : ℕ} {b : Str} (hf : Follows N s H) (hs : s.readCb fd b = .ok s') :
    Follows N s' (H.next (.read fd b, [])) := by
  rw [Server.readCb] at hs
  split at hs
  · exact absurd hs (by simp)
  · next k hk =>
      have hbuff := hf.connected.buff fd k hk
      have hsmall := hf.connected.small fd k hk
      rw [bind_eq_ok] at hs
      obtain ⟨k', hread, hs⟩ := hs
      rw [Call.run_eq_ok_iff, Connection.readCb] at hread
      obtain rfl := Except.ok.inj hs
      cases hb : b.isEmpty with
      | true =>
          rw [hb, if_pos rfl] at hread
          obtain rfl := List.isEmpty_iff.1 hb
          obtain ⟨k'', us, hflush, hclass, hus, hstream⟩ := Connection.flush_eq
            (k := { inputBuff := k.inputBuff, numUrls := k.numUrls, classifier := s.classifier })
            (t := H.live fd) hbuff
          obtain rfl := Except.ok.inj (hread.symm.trans hflush)
          obtain ⟨hinv, hcont⟩ := hf.inv.pushAll hus
          refine ⟨?_, hf.connected.update (fun _ => rfl) (by simp), ?_, hf.saved⟩
          · rw [hclass]
            exact hinv
          · rw [hclass, hcont, History.urls_end hsmall hstream, hf.balance]
            exact add_assoc ..
      | false =>
          rw [hb, if_neg (by simp)] at hread
          obtain ⟨k'', us, hflush, hleft, hclass, hus, hstream⟩ := Connection.read_eq
            (k := { inputBuff := k.inputBuff, numUrls := k.numUrls, classifier := s.classifier })
            (t := H.live fd) hbuff b
          obtain rfl := Except.ok.inj (hread.symm.trans hflush)
          obtain ⟨hinv, hcont⟩ := hf.inv.pushAll hus
          have hbalance : (H.next (.read fd b, [])).urls
              = (GlobalInfo.poppedUrls H.log : Multiset Url) + k'.classifier.contents := by
            rw [hclass, hcont, History.urls_read hsmall hb hstream, hf.balance]
            exact add_assoc ..
          simp only [History.next, hb] at hbalance ⊢
          refine ⟨?_, hf.connected.update (by simp) ?_, hbalance, hf.saved⟩
          · rw [hclass]
            exact hinv
          · rintro k₁ ⟨rfl⟩
            exact ⟨hsmall, hleft⟩

/-- The crawl goes on and logs what it does. -/
lemma crawl {j : GlobalInfo.Input} {g : GlobalInfo Q} (hf : Follows N s H) (hj : j.pushed = 0)
    (hs : s.toGlobalInfo.step cfg N j = .ok (log, g)) :
    Follows N { s with toGlobalInfo := g } { H with log := H.log ++ log } := by
  obtain ⟨hinv, hsum⟩ := hf.inv.step hs
  refine ⟨hinv, hf.connected, ?_, ?_⟩
  · rw [hj, add_zero] at hsum
    rw [GlobalInfo.poppedUrls_append, ← Multiset.coe_add, add_assoc, ← hsum]
    exact hf.balance
  · rw [hf.inv.ndocsSaved_step hs, hf.saved, GlobalInfo.savedDocs_append, List.length_append]

lemma step (hf : Follows N s H) (hfresh : s.Fresh i) (hs : s.step cfg N i = .ok (log, s')) :
    Follows N s' (H.next (i, log)) := by
  have hcrawl : ∀ {j : GlobalInfo.Input}, j.pushed = 0 →
      s.ofCrawl (s.toGlobalInfo.step cfg N j) = .ok (log, s') →
      Follows N s' { H with log := H.log ++ log } := by
    intro j hj hcrawl
    rw [ofCrawl, bind_eq_ok] at hcrawl
    obtain ⟨⟨log₁, g⟩, hg, hcrawl⟩ := hcrawl
    obtain ⟨rfl, rfl⟩ := Prod.mk.inj (Except.ok.inj hcrawl)
    exact hf.crawl hj hg
  cases i with
  | accept fd =>
      rw [Server.step, bind_eq_ok] at hs
      obtain ⟨s₁, haccept, hs⟩ := hs
      obtain ⟨rfl, rfl⟩ := Prod.mk.inj (Except.ok.inj hs)
      exact hf.acceptCb hfresh haccept
  | read fd b =>
      rw [Server.step, bind_eq_ok] at hs
      obtain ⟨s₁, hread, hs⟩ := hs
      obtain ⟨rfl, rfl⟩ := Prod.mk.inj (Except.ok.inj hs)
      exact hf.readCb hread
  | tick loads => exact hcrawl rfl hs
  | complete id r => exact hcrawl rfl hs

/-- What a reaction pops is accounted for. -/
lemma accounted (hf : Follows N s H) (hs : s.step cfg N i = .ok (log, s')) :
    log = [] ∨ ∃ id r, i = .complete id r ∧
      GlobalInfo.Accounted (s.multi id) log (s'.handles id) := by
  cases i with
  | accept fd =>
      rw [Server.step, bind_eq_ok] at hs
      obtain ⟨s₁, -, hs⟩ := hs
      exact Or.inl (Prod.mk.inj (Except.ok.inj hs)).1.symm
  | read fd b =>
      rw [Server.step, bind_eq_ok] at hs
      obtain ⟨s₁, -, hs⟩ := hs
      exact Or.inl (Prod.mk.inj (Except.ok.inj hs)).1.symm
  | tick loads =>
      rw [Server.step, ofCrawl, bind_eq_ok] at hs
      obtain ⟨⟨log₁, g⟩, hg, hs⟩ := hs
      obtain ⟨rfl, -⟩ := Prod.mk.inj (Except.ok.inj hs)
      rw [GlobalInfo.step, bind_eq_ok] at hg
      obtain ⟨g₁, -, hg⟩ := hg
      exact Or.inl (Prod.mk.inj (Except.ok.inj hg)).1.symm
  | complete id r =>
      rw [Server.step, ofCrawl, bind_eq_ok] at hs
      obtain ⟨⟨log₁, g⟩, hg, hs⟩ := hs
      obtain ⟨rfl, rfl⟩ := Prod.mk.inj (Except.ok.inj hs)
      exact Or.inr ⟨id, r, rfl, hf.inv.accounted hg⟩

end Follows

/-- In every run, the URLs of the streams of all connections, each cut into lines on its own, are
those that were popped and those that are queued.  In every state that is reached, a reaction pops
nothing, or it is a completion: it pops the URL of the transfer, for which it has saved a document
under a normal form of the URL, and URLs that are refused by the `robots.txt` which the handle
holds.  `m_ndocs_saved` is the number of documents saved.  Every open connection holds the
unfinished line of its own stream. -/
theorem received_eq {db : Collection} {l : List (Input × List Event)}
    (h : (machine cfg N).Run Fresh (new Q db N) l s) :
    (history l).urls
        = (GlobalInfo.poppedUrls (history l).log : Multiset Url) + s.classifier.contents ∧
      (∀ i log s', s.step cfg N i = .ok (log, s') → log = [] ∨ ∃ id r, i = .complete id r ∧
        GlobalInfo.Accounted (s.multi id) log (s'.handles id)) ∧
      s.ndocsSaved = (GlobalInfo.savedDocs (history l).log).length ∧
      ∀ fd k, s.connections fd = some k →
        k.inputBuff = Connection.lastLine ((history l).live fd) := by
  have hf : Follows N s (history l) := h.refinement History.next
    (fun s i log s' H hf hfresh hexec => hf.step hfresh (step_of_machine hexec)) (.init db N)
  refine ⟨hf.balance, fun i log s' hs => hf.accounted hs, hf.saved, fun fd k hk => ?_⟩
  rw [hf.connected.buff fd k hk, Connection.urlsFrom_snd]

/-- Two clients whose lines arrive in turns: one URL cannot be fetched, the other one is queued. -/
theorem received_eq_two :
    ∃ (l : List (Input × List Event)) (s : Server (PriorityQueue.ofList hostKey)),
      (machine GlobalInfo.plainConfig 1).Run Fresh (new _ (fun _ => none) 1) l s ∧
        s.ndocsSaved = 1 ∧ s.classifier.size = 1 ∧
        (history l).urls
          = (GlobalInfo.poppedUrls (history l).log : Multiset Url) + s.classifier.contents := by
  obtain ⟨l, s, hrun, hp⟩ := Machine.exists_run_of_any
    (M := (machine GlobalInfo.plainConfig 1).guard Fresh) (G := Machine.Free)
    (s := new (PriorityQueue.ofList hostKey) (fun _ => none) 1)
    (p := fun x => x.2.ndocsSaved == 1 && x.2.classifier.size == 1)
    [.accept (some 5), .accept (some 7), .read 5 (lit "http://a"), .read 7 (lit "http://b/y"),
      .read 5 (lit "/x\n"), .read 7 [], .tick fun _ _ => {},
      .complete 0 (GlobalInfo.reply "http://a/robots.txt" 404),
      .complete 0 (GlobalInfo.reply "http://a/x" 404)]
    (fun _ _ _ => trivial) (by decide +kernel)
  simp only [Bool.and_eq_true, beq_iff_eq] at hp
  have hrun' := Machine.run_of_guard hrun
  exact ⟨l, s, hrun', hp.1, hp.2, (received_eq hrun').1⟩

end Server

end Mycelium
