import Mycelium.Crawler.HandleStates

/-!
# The event loop

`timer_cb` and `multi_cb` let curl work on its transfers and call `check_run_count`, which reads the
messages about completed transfers.  It does so only when the number of running transfers has gone
down since its last call.  That number also goes up, when `reschedule` adds a transfer, so that a
completion can hide behind an addition: its message stays in the queue of curl, and its handle in a
state that no callback leaves.
-/

namespace Mycelium

open Lib Bson

/-- `GlobalInfo` with the counters of `check_run_count`, and curl's queue of messages. -/
structure EventLoop (Q : PriorityQueue hostKey) extends GlobalInfo Q where
  messages : List (ℕ × Completion) := []
  stillRunning : ℕ := 0
  prevRunning : ℕ := 0

namespace EventLoop

variable {Q : PriorityQueue hostKey}

/-- `GlobalInfo(parallel, port)` on a database. -/
def new (Q : PriorityQueue hostKey) (db : Collection) (parallel : ℕ) : EventLoop Q :=
  { toGlobalInfo := GlobalInfo.new Q db parallel }

/-- The transfers that curl works on: they have been added, and no message is queued for them. -/
def running (N : ℕ) (g : EventLoop Q) : List ℕ :=
  (List.range N).filter fun id => (g.multi id).isSome && !(g.messages.map Prod.fst).contains id

/-- `curl_multi_socket_action`, which completes some transfers. -/
def socketAction (N : ℕ) (completed : List (ℕ × Completion)) (g : EventLoop Q) : EventLoop Q :=
  let g := { g with messages := g.messages ++ completed }
  { g with stillRunning := (g.running N).length }

/-- The loop of `GlobalInfo::check_run_count`: `curl_multi_info_read` gives the messages in turn,
and `done` adds none. -/
def readMessages (cfg : Config) (g : GlobalInfo Q) (ms : List (ℕ × Completion)) :
    Except Thrown (GlobalInfo Q) :=
  ms.foldlM (fun g m => do
    let (_, g) ← g.checkRunCount cfg m.1 m.2
    .ok g) g

/-- `GlobalInfo::check_run_count`. -/
def checkRunCount (cfg : Config) (g : EventLoop Q) : Except Thrown (EventLoop Q) :=
  if g.prevRunning > g.stillRunning then do
    let g' ← readMessages cfg g.toGlobalInfo g.messages
    .ok { g with toGlobalInfo := g', messages := [], prevRunning := g.stillRunning }
  else .ok { g with prevRunning := g.stillRunning }

/-- What the crawler reacts to. -/
inductive Input where
  /-- A line with a URL. -/
  | push (line : Str)
  /-- `scheduler_cb`, with the answers to `Doc::load_url` by handle. -/
  | tick (loads : ℕ → Url → Load)
  /-- `timer_cb` or `multi_cb`, with the transfers that curl completes in it. -/
  | event (completed : List (ℕ × Completion))

/-- curl completes only transfers that it works on, and each of them once. -/
def Possible (N : ℕ) (g : EventLoop Q) : Input → Prop
  | .push _ => True
  | .tick _ => True
  | .event completed =>
      (completed.map Prod.fst).Nodup ∧ ∀ id ∈ completed.map Prod.fst, id ∈ g.running N

instance (N : ℕ) (g : EventLoop Q) (i : Input) : Decidable (Possible N g i) :=
  match i with
  | .push _ => inferInstanceAs (Decidable True)
  | .tick _ => inferInstanceAs (Decidable True)
  | .event completed => inferInstanceAs (Decidable ((completed.map Prod.fst).Nodup ∧
      ∀ id ∈ completed.map Prod.fst, id ∈ g.running N))

/-- A reaction that curl has no part in. -/
def ofCrawl (g : EventLoop Q) (r : Except Thrown (List Event × GlobalInfo Q)) :
    Except Thrown (EventLoop Q) := do
  let (_, g') ← r
  .ok { g with toGlobalInfo := g' }

/-- The reaction to an input. -/
def step (cfg : Config) (N : ℕ) (g : EventLoop Q) : Input → Except Thrown (EventLoop Q)
  | .push line => g.ofCrawl (g.toGlobalInfo.step cfg N (.push line))
  | .tick loads => g.ofCrawl (g.toGlobalInfo.step cfg N (.tick loads))
  | .event completed => (g.socketAction N completed).checkRunCount cfg

/-- The event loop as a machine; it stops at an exception. -/
def machine (cfg : Config) (N : ℕ) : Machine (EventLoop Q) Input Unit where
  exec g i :=
    if Possible N g i then (g.step cfg N i).toOption.map fun g' => ((), g')
    else none

variable {cfg : Config} {N id : ℕ} {g g' : EventLoop Q} {i : Input}
  {completed : List (ℕ × Completion)}

lemma step_of_machine {o : Unit} (hexec : (machine cfg N).exec g i = some (o, g')) :
    Possible N g i ∧ g.step cfg N i = .ok g' := by
  simp only [machine] at hexec
  split at hexec
  · next hpos =>
      obtain ⟨x, hx, heq⟩ := Option.map_eq_some_iff.1 hexec
      obtain rfl := (Prod.mk.inj heq).2
      exact ⟨hpos, ok_of_toOption hx⟩
  · exact absurd hexec (by simp)

/-! ### What a reaction does -/

lemma ofCrawl_ok {r : Except Thrown (List Event × GlobalInfo Q)} (h : g.ofCrawl r = .ok g') :
    ∃ log g₁, r = .ok (log, g₁) ∧ g' = { g with toGlobalInfo := g₁ } := by
  rw [ofCrawl, bind_eq_ok] at h
  obtain ⟨⟨log, g₁⟩, hr, h⟩ := h
  exact ⟨log, g₁, hr, (Except.ok.inj h).symm⟩

/-- `check_run_count` reads all messages or none. -/
lemma checkRunCount_ok (h : g.checkRunCount cfg = .ok g') :
    (g.stillRunning < g.prevRunning ∧ ∃ g₁, readMessages cfg g.toGlobalInfo g.messages = .ok g₁ ∧
      g' = { g with toGlobalInfo := g₁, messages := [], prevRunning := g.stillRunning }) ∨
    (g.prevRunning ≤ g.stillRunning ∧ g' = { g with prevRunning := g.stillRunning }) := by
  rw [checkRunCount] at h
  split at h
  · next hlt =>
      rw [bind_eq_ok] at h
      obtain ⟨g₁, hread, h⟩ := h
      exact Or.inl ⟨hlt, g₁, hread, (Except.ok.inj h).symm⟩
  · next hle => exact Or.inr ⟨Nat.le_of_not_lt hle, (Except.ok.inj h).symm⟩

/-! ### The event loop refines the crawl -/

/-- A reaction of the event loop is a run of the crawl, with a completion for each message that is
read. -/
lemma crawl_of_readMessages {g g' : GlobalInfo Q} {ms : List (ℕ × Completion)}
    (h : readMessages cfg g ms = .ok g') :
    ∃ l, (GlobalInfo.machine cfg N).Run Machine.Free g l g' := by
  induction ms generalizing g with
  | nil =>
      obtain rfl := Except.ok.inj h
      exact ⟨[], .nil g⟩
  | cons m ms ih =>
      rw [readMessages, List.foldlM_cons, bind_eq_ok] at h
      obtain ⟨g₁, hbody, hrest⟩ := h
      rw [bind_eq_ok] at hbody
      obtain ⟨⟨log, g₂⟩, hdone, hbody⟩ := hbody
      obtain rfl := Except.ok.inj hbody
      obtain ⟨l, hl⟩ := ih hrest
      refine ⟨(.complete m.1 m.2, log) :: l, .cons trivial ?_ hl⟩
      simp only [GlobalInfo.machine, GlobalInfo.step, hdone]
      rfl

lemma crawl_of_step (h : g.step cfg N i = .ok g') :
    ∃ l, (GlobalInfo.machine cfg N).Run Machine.Free g.toGlobalInfo l g'.toGlobalInfo := by
  have hone : ∀ {j : GlobalInfo.Input}, g.ofCrawl (g.toGlobalInfo.step cfg N j) = .ok g' →
      ∃ l, (GlobalInfo.machine cfg N).Run Machine.Free g.toGlobalInfo l g'.toGlobalInfo := by
    intro j hj
    obtain ⟨log, g₁, hstep, rfl⟩ := ofCrawl_ok hj
    refine ⟨[(j, log)], .cons trivial ?_ (.nil _)⟩
    simp only [GlobalInfo.machine, hstep]
    rfl
  cases i with
  | push line => exact hone h
  | tick loads => exact hone h
  | event completed =>
      rcases checkRunCount_ok h with ⟨-, g₁, hread, rfl⟩ | ⟨-, rfl⟩
      · exact crawl_of_readMessages hread
      · exact ⟨[], .nil _⟩

/-- The invariant of the crawl holds in every run of the event loop. -/
lemma inv_of_run {G : EventLoop Q → Input → Prop} {db : Collection} {l : List (Input × Unit)}
    (h : (machine cfg N).Run G (new Q db N) l g) : GlobalInfo.Inv N g.toGlobalInfo := by
  obtain ⟨l', hl'⟩ := h.invariant
    (I := fun g => ∃ l', (GlobalInfo.machine cfg N).Run Machine.Free (GlobalInfo.new Q db N) l'
      g.toGlobalInfo)
    (by
      rintro g i o g' ⟨l₁, hl₁⟩ - hexec
      obtain ⟨l₂, hl₂⟩ := crawl_of_step (step_of_machine hexec).2
      exact ⟨l₁ ++ l₂, hl₁.append hl₂⟩)
    ⟨[], .nil _⟩
  exact GlobalInfo.inv_of_run hl'

/-! ### The messages that are read -/

/-- The condition on an event: it completes nothing, or leaves fewer transfers running than
`prev_running` has counted. -/
def Noticed (N : ℕ) (g : EventLoop Q) : Input → Prop
  | .push _ => True
  | .tick _ => True
  | .event completed =>
      completed = [] ∨ (g.running N).length < g.prevRunning + completed.length

instance (N : ℕ) (g : EventLoop Q) (i : Input) : Decidable (Noticed N g i) :=
  match i with
  | .push _ => inferInstanceAs (Decidable True)
  | .tick _ => inferInstanceAs (Decidable True)
  | .event completed => decidable_of_iff (completed.isEmpty = true ∨
      (g.running N).length < g.prevRunning + completed.length) (by rw [List.isEmpty_iff, Noticed])

lemma nodup_running (g : EventLoop Q) : (g.running N).Nodup := List.nodup_range.filter _

/-- What is completed does not run any more. -/
lemma length_running (h : Possible N g (.event completed)) :
    (g.socketAction N completed).stillRunning + completed.length = (g.running N).length := by
  obtain ⟨hnodup, hsub⟩ := h
  have hleft : (g.socketAction N completed).stillRunning
      = ((g.running N).filter fun id => !(completed.map Prod.fst).contains id).length := by
    simp only [socketAction, running, List.filter_filter]
    refine congrArg List.length (List.filter_congr fun id _ => ?_)
    rw [List.map_append, List.contains_append, Bool.not_or, ← Bool.and_assoc, Bool.and_comm]
  have hdone : ((g.running N).filter fun id => (completed.map Prod.fst).contains id).length
      = completed.length := by
    have hperm : ((g.running N).filter fun id => (completed.map Prod.fst).contains id).Perm
        (completed.map Prod.fst) := by
      rw [List.perm_ext_iff_of_nodup ((nodup_running g).filter _) hnodup]
      intro id
      simp only [List.mem_filter, List.contains_iff_mem]
      exact ⟨fun hid => hid.2, fun hid => ⟨hsub id hid, hid⟩⟩
    rw [hperm.length_eq, List.length_map]
  have hsplit := List.length_eq_length_filter_add (l := g.running N)
    fun id => (completed.map Prod.fst).contains id
  omega

/-- After an event no message is left exactly when the event meets the condition. -/
lemma messages_of_event (hg : g.messages = []) (hpos : Possible N g (.event completed))
    (hs : g.step cfg N (.event completed) = .ok g') :
    g'.messages = [] ↔ Noticed N g (.event completed) := by
  have hlen := length_running hpos
  have hmsgs : (g.socketAction N completed).messages = completed := by
    rw [socketAction, hg, List.nil_append]
  have hprev : (g.socketAction N completed).prevRunning = g.prevRunning := rfl
  rw [Noticed]
  rcases checkRunCount_ok hs with ⟨hlt, g₁, -, rfl⟩ | ⟨hle, rfl⟩
  · exact iff_of_true rfl (Or.inr (by omega))
  · rw [hmsgs]
    exact ⟨Or.inl, fun h => h.resolve_right (by omega)⟩

/-- Where the invariant of the crawl holds and no message is queued, a handle that is not idle waits
for a transfer that is running. -/
lemma mem_running (hinv : GlobalInfo.Inv N g.toGlobalInfo) (hg : g.messages = []) (hid : id < N)
    (hst : (g.handles id).state ≠ .idle) : id ∈ g.running N := by
  have hsome : (g.multi id).isSome = true :=
    Option.isSome_iff_ne_none.2 fun hnone => hst ((hinv.handles id hid).idle hnone)
  simp [running, hg, hid, hsome]

/-- In every run whose events meet the condition no message is left when `check_run_count` returns,
and every handle that is not idle waits for a running transfer.  The next event leaves no message
exactly when it meets the condition too. -/
theorem messages_read_of_noticed {db : Collection} {l : List (Input × Unit)}
    (h : (machine cfg N).Run (Noticed N) (new Q db N) l g) :
    g.messages = [] ∧ (∀ id < N, (g.handles id).state ≠ .idle → id ∈ g.running N) ∧
      ∀ i g', Possible N g i → g.step cfg N i = .ok g' → (g'.messages = [] ↔ Noticed N g i) := by
  have hstep : ∀ (g g' : EventLoop Q) (i : Input), g.messages = [] → Possible N g i →
      g.step cfg N i = .ok g' → (g'.messages = [] ↔ Noticed N g i) := by
    intro g g' i hg hpos hs
    have hcrawl : ∀ {j : GlobalInfo.Input}, g.ofCrawl (g.toGlobalInfo.step cfg N j) = .ok g' →
        g'.messages = [] := by
      intro j hj
      obtain ⟨-, -, -, rfl⟩ := ofCrawl_ok hj
      exact hg
    cases i with
    | push line => exact iff_of_true (hcrawl hs) trivial
    | tick loads => exact iff_of_true (hcrawl hs) trivial
    | event completed => exact messages_of_event hg hpos hs
  have hg : g.messages = [] := by
    refine h.invariant (I := fun g => g.messages = []) ?_ rfl
    intro g i o g' hg hnoticed hexec
    obtain ⟨hpos, hs⟩ := step_of_machine hexec
    exact (hstep g g' i hg hpos hs).2 hnoticed
  exact ⟨hg, fun id hid => mem_running (inv_of_run h) hg hid, fun i g' => hstep g g' i hg⟩

/-- curl starts the request for `robots.txt` in one event and completes it in the next one, which
goes on with the HEAD request. -/
theorem messages_read_of_noticed_robots :
    ∃ (l : List (Input × Unit)) (g : EventLoop (PriorityQueue.ofList hostKey)),
      (machine GlobalInfo.plainConfig 1).Run (Noticed 1) (new _ (fun _ => none) 1) l g ∧
        l.length = 4 ∧ (g.handles 0).state = .head ∧ g.messages = [] ∧ 0 ∈ g.running 1 := by
  obtain ⟨l, g, hrun, hp⟩ := Machine.exists_run_of_any
    (M := (machine GlobalInfo.plainConfig 1).guard (Noticed 1)) (G := Machine.Free)
    (s := new (PriorityQueue.ofList hostKey) (fun _ => none) 1)
    (p := fun x => x.1.length == 4 && (x.2.handles 0).state == .head)
    [.push (lit "http://a/x"), .tick fun _ _ => {}, .event [],
      .event [(0, GlobalInfo.reply "http://a/robots.txt" 404)]]
    (fun _ _ _ => trivial) (by decide +kernel)
  simp only [Bool.and_eq_true, beq_iff_eq] at hp
  have hrun' := Machine.run_of_guard hrun
  obtain ⟨hmsgs, hwaits, -⟩ := messages_read_of_noticed hrun'
  exact ⟨l, g, hrun', hp.1, hp.2, hmsgs, hwaits 0 (by decide) (by simp [hp.2])⟩

/-- A transfer that is completed in the first event after it was added: `prev_running` has not
counted it, its message stays in the queue, and its handle in the state ROBOTS without a running
transfer. -/
theorem not_messages_read_first :
    ∃ (l : List (Input × Unit)) (g : EventLoop (PriorityQueue.ofList hostKey)),
      (machine GlobalInfo.plainConfig 1).Run Machine.Free (new _ (fun _ => none) 1) l g ∧
        g.messages ≠ [] ∧ (g.handles 0).state = .robots ∧ g.running 1 = [] := by
  obtain ⟨l, g, hrun, hp⟩ := Machine.exists_run_of_any
    (M := machine GlobalInfo.plainConfig 1) (G := Machine.Free)
    (s := new (PriorityQueue.ofList hostKey) (fun _ => none) 1)
    (p := fun x => !x.2.messages.isEmpty && (x.2.handles 0).state == .robots &&
      x.2.running 1 == [])
    [.push (lit "http://a/x"), .tick fun _ _ => {},
      .event [(0, GlobalInfo.reply "http://a/robots.txt" 404)]]
    (fun _ _ _ => trivial) (by decide +kernel)
  simp only [Bool.and_eq_true, Bool.not_eq_true', beq_iff_eq] at hp
  exact ⟨l, g, hrun, by simpa using hp.1.1, hp.1.2, hp.2⟩

end EventLoop

end Mycelium
