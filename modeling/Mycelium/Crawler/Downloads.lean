import Mycelium.Common.UrlIdempotent
import Mycelium.Crawler.HandleStates

/-!
# What curl delivers

The crawl with the callbacks that take what curl delivers, `header_write_cb` and `content_write_cb`,
and with the answers of the database that it writes.  Every handle has its own buffers, which
`EasyHandle::reset` clears, and a transfer of more than `CONTENT_SIZE_LIMIT` bytes is given up.

Whatever the order of the callbacks of the handles is, the content that is stored under a URL is all
that one successful request for this URL has delivered.
-/

namespace Mycelium

open Lib Bson

/-- `CONTENT_SIZE_LIMIT`. -/
def contentSizeLimit : ℕ := 1048576

/-- The answer of a collection to `Doc::load_url`, which always returns `false`. -/
def Bson.Collection.answer (db : Collection) (u : Url) : Load :=
  match u.normalize with
  | .ok url => { cursor := db.query url.get }
  | .error _ => {}

/-- What `curl_multi_info_read` and `curl_easy_getinfo` say about a completed transfer. -/
structure Message where
  effUrl : Str
  result : Int32
  curlError : Str := []
  httpCode : Int32
  filetime : Int64 := -1
  time : Int64 := 0

/-- `GlobalInfo` with the buffers of the handles. -/
structure Downloads (Q : PriorityQueue hostKey) extends GlobalInfo Q where
  /-- `m_content_os`. -/
  contentOs : ℕ → Str := fun _ => []
  /-- `m_headers_os`. -/
  headersOs : ℕ → Str := fun _ => []
  /-- `m_content_dl_bytes`. -/
  contentDlBytes : ℕ → ℕ := fun _ => 0
  /-- `dl_bytes`. -/
  dlBytes : ℕ := 0
  /-- curl has given the transfer up, because a callback has not taken all that it was given. -/
  aborted : ℕ → Bool := fun _ => false

namespace Downloads

variable {Q : PriorityQueue hostKey}

/-- `GlobalInfo(parallel, port)` on a database. -/
def new (Q : PriorityQueue hostKey) (db : Collection) (parallel : ℕ) : Downloads Q :=
  { toGlobalInfo := GlobalInfo.new Q db parallel }

/-- `header_write_cb`, with what it returns. -/
def headerWriteCb (id : ℕ) (buff : Str) (g : Downloads Q) : ℕ × Downloads Q :=
  (buff.length,
    { g with
      dlBytes := g.dlBytes + buff.length
      headersOs := Function.update g.headersOs id (g.headersOs id ++ buff) })

/-- `content_write_cb`, with what it returns. -/
def contentWriteCb (id : ℕ) (buff : Str) (g : Downloads Q) : ℕ × Downloads Q :=
  let g := { g with
    contentDlBytes := Function.update g.contentDlBytes id (g.contentDlBytes id + buff.length)
    dlBytes := g.dlBytes + buff.length
    contentOs := Function.update g.contentOs id (g.contentOs id ++ buff) }
  if g.contentDlBytes id > contentSizeLimit then (0, g) else (buff.length, g)

/-- curl calls a callback with a buffer, and gives the transfer up if it returns another number than
the length of the buffer. -/
def call (cb : ℕ → Str → Downloads Q → ℕ × Downloads Q) (id : ℕ) (buff : Str) (g : Downloads Q) :
    Downloads Q :=
  let (n, g') := cb id buff g
  { g' with aborted := Function.update g'.aborted id (g'.aborted id || n != buff.length) }

/-- The part of `EasyHandle::reset` that clears the buffers, for the handles that have got a new
transfer. -/
def reset (g : Downloads Q) (started : ℕ → Bool) : Downloads Q :=
  { g with
    contentOs := fun id => if started id then [] else g.contentOs id
    headersOs := fun id => if started id then [] else g.headersOs id
    contentDlBytes := fun id => if started id then 0 else g.contentDlBytes id
    aborted := fun id => if started id then false else g.aborted id }

/-- What `done` finds, if the database answers as `db`. -/
def completion (g : Downloads Q) (id : ℕ) (m : Message) (db : Collection) : Completion where
  effUrl := m.effUrl
  result := m.result
  curlError := m.curlError
  httpCode := m.httpCode
  filetime := m.filetime
  time := m.time
  headers := g.headersOs id
  content := g.contentOs id
  loads := fun _ => db.answer
  load := db.answer

/-- The database after the switch of `done`, which may save the document. -/
def settledDb (cfg : Config) (id : ℕ) (r : Completion) (h : EasyHandle) (s : Shared Q) :
    Collection :=
  match h.doc with
  | none => s.db
  | some d =>
      match (do
        let d ← Call.url.run (EasyHandle.finish d r)
        h.settle cfg id r d s) with
      | .ok (_, _, s') => s'.db
      | .error _ => s.db

/-- What the crawler reacts to. -/
inductive Input where
  /-- A line with a URL. -/
  | push (line : Str)
  /-- `scheduler_cb`. -/
  | tick
  /-- curl has a part of the headers for a handle. -/
  | header (id : ℕ) (buff : Str)
  /-- curl has a part of the content for a handle. -/
  | body (id : ℕ) (buff : Str)
  /-- The transfer of a handle is completed. -/
  | complete (id : ℕ) (m : Message)

/-- What happened in a reaction, and the transfer that was completed. -/
structure Answer where
  events : List Event := []
  transfer : Option Transfer := none

/-- The reaction to an input. -/
def step (cfg : Config) (parallel : ℕ) (g : Downloads Q) :
    Input → Except Thrown (Answer × Downloads Q)
  | .push line => do
      let (log, g') ← g.toGlobalInfo.step cfg parallel (.push line)
      .ok ({ events := log }, { g with toGlobalInfo := g' })
  | .tick => do
      let (log, g') ← g.toGlobalInfo.step cfg parallel (.tick fun _ => g.db.answer)
      .ok ({ events := log }, { g with toGlobalInfo := g' }.reset fun id =>
        (g.multi id).isNone && (g'.multi id).isSome)
  | .header id buff => .ok ({}, g.call headerWriteCb id buff)
  | .body id buff => .ok ({}, g.call contentWriteCb id buff)
  | .complete id m => do
      -- `done` asks the database after it has saved the document
      let db := settledDb cfg id (g.completion id m g.db) (g.handles id) g.toShared
      let (log, g') ← g.toGlobalInfo.step cfg parallel (.complete id (g.completion id m db))
      .ok ({ events := log, transfer := g.multi id }, { g with toGlobalInfo := g' }.reset fun n =>
        n == id && (g'.multi id).isSome)

/-- The crawler as a machine; it stops at an exception. -/
def machine (cfg : Config) (parallel : ℕ) : Machine (Downloads Q) Input Answer where
  exec g i := (g.step cfg parallel i).toOption

/-- The handle has a transfer in one of two states, and curl has not given it up. -/
def Receives (g : Downloads Q) (id : ℕ) (st st' : HState) : Prop :=
  g.aborted id = false ∧ (g.multi id).any (fun t => t.state == st || t.state == st') = true

/-- What curl does: it delivers headers for HEAD and GET requests and contents for requests of
`robots.txt` and GET requests that it has not given up, and a transfer that it has given up is not
completed with `CURLE_OK`.  URLs without a host are not pushed. -/
def Possible (g : Downloads Q) : Input → Prop
  | .push line => (Url.assign line).toOption.any (fun u => u.host.isEmpty) = false
  | .tick => True
  | .header id _ => g.Receives id .head .content
  | .body id _ => g.Receives id .robots .content
  | .complete id m => g.aborted id = true → m.result ≠ 0

instance (g : Downloads Q) (id : ℕ) (st st' : HState) : Decidable (g.Receives id st st') :=
  inferInstanceAs (Decidable (_ ∧ _))

instance (g : Downloads Q) (i : Input) : Decidable (g.Possible i) :=
  match i with
  | .push line =>
      inferInstanceAs (Decidable ((Url.assign line).toOption.any (fun u => u.host.isEmpty) = false))
  | .tick => inferInstanceAs (Decidable True)
  | .header id _ => inferInstanceAs (Decidable (g.Receives id .head .content))
  | .body id _ => inferInstanceAs (Decidable (g.Receives id .robots .content))
  | .complete id m => inferInstanceAs (Decidable (g.aborted id = true → m.result ≠ 0))

end Downloads

/-! ### The third normalization -/

/-- The first normalization leaves no escape in the host, so that nothing changes from the second
one on. -/
lemma Url.Accepted.get_normalize_thrice {u v w x : Url} (h : Accepted u) (hhost : u.host ≠ [])
    (hv : u.normalize = .ok v) (hw : v.normalize = .ok w) (hx : w.normalize = .ok x) :
    x.get = w.get := by
  obtain ⟨v', hv', haccv, hvh, hvne, -⟩ := h.normalize_ok hhost
  obtain rfl := Except.ok.inj (hv.symm.trans hv')
  obtain ⟨w', x', hw', hx', haccw, -, hwh, hxh, hparts⟩ := haccv.normalize_twice hvne
  obtain rfl := Except.ok.inj (hw.symm.trans hw')
  obtain rfl := Except.ok.inj (hx.symm.trans hx')
  have hplain : NoUpperEscape v.host := by
    intro a b hab
    rw [hvh, tokens_of_not_mem (percent_not_mem_hostNormal h.host_valid)] at hab
    simp at hab
  have hfix : hostNormal w.host = w.host := by
    rw [hwh]
    exact (hostNormal_hostNormal_iff haccv.host_valid).2 hplain
  have hwne : w.host ≠ [] := by
    rw [hwh]
    exact (hostNormal_eq_nil_iff haccv.host_valid).not.2 hvne
  rw [← print_parts, ← print_parts, hparts]
  simp [parts, haccw.hasAuthority_of_host hwne, hfix]

/-! ### The document of a handle -/

/-- The content of a document that was loaded is the one that is stored under its URL. -/
lemma Doc.content_loadWith {unset : Int32} {db : Collection} {u : Url} {d : Doc} {b : Bool}
    (h : (Doc.new unset).loadWith (db.answer u) u = .ok (d, b)) :
    d.content = [] ∨ ∃ o, db d.url.get = some o ∧ o .content = some (.binData d.content) := by
  rw [loadWith, bind_eq_ok] at h
  obtain ⟨url, hurl, h⟩ := h
  rw [bind_eq_ok] at h
  obtain ⟨r, hloop, h⟩ := h
  obtain ⟨rfl, -⟩ := Prod.mk.inj (Except.ok.inj h)
  simp only [Collection.answer, hurl, Collection.query] at hloop
  have hrurl := url_loadLoop hloop
  cases ho : db url.get with
  | none =>
      rw [ho, Option.toList_none, loadLoop] at hloop
      rw [← Except.ok.inj hloop]
      exact Or.inl rfl
  | some o =>
      rw [ho, Option.toList_some, loadLoop, bind_eq_ok] at hloop
      obtain ⟨d', hread, hloop⟩ := hloop
      rw [loadLoop] at hloop
      rw [← Except.ok.inj hloop] at hrurl ⊢
      simp only [readObj, bind_eq_ok] at hread
      obtain ⟨_, -, _, -, _, -, _, -, _, -, _, -, content, hcontent, hread⟩ := hread
      iterate 9 obtain ⟨_, -, hread⟩ := hread
      rw [← Except.ok.inj hread] at hrurl ⊢
      simp only at hrurl ⊢
      rw [readField] at hcontent
      split at hcontent
      · next v hv =>
          cases v with
          | binData bytes =>
              obtain rfl := Except.ok.inj hcontent
              exact Or.inr ⟨o, ho, hv⟩
          | _ => exact absurd hcontent (by simp [Value.binDataBytes])
      · exact Or.inl (Except.ok.inj hcontent).symm

namespace EasyHandle

variable {Q : PriorityQueue hostKey} {cfg : Config} {id : ℕ} {h h' : EasyHandle}
  {c c' : UrlClassifier Q} {s s' : Shared Q} {t : Transfer} {r : Completion} {log : List Event}
  {o : Option Transfer} {d : Doc}

/-- A page is requested with the document that was loaded for it. -/
lemma reschedule_loaded {load : Url → Load}
    (hr : reschedule cfg id load h c = .ok (h', c', some t))
    (ht : t.state = .head ∨ t.state = .content) :
    ∃ d b, h'.doc = some d ∧
      (Doc.new cfg.unset).loadWith (load t.request) t.request = .ok (d, b) := by
  rw [reschedule, bind_eq_ok] at hr
  obtain ⟨stop, -, hr⟩ := hr
  cases stop with
  | true => exact absurd (ok_triple hr).2.2 (by simp)
  | false =>
      simp only [Bool.false_eq_true, if_false, bind_eq_ok] at hr
      obtain ⟨⟨u, c₁⟩, -, url, -, ⟨d, b⟩, hload, ⟨h₁, t₁⟩, hdisp, hr⟩ := hr
      obtain ⟨rfl, rfl, ht₁⟩ := ok_triple hr
      obtain rfl := Option.some.inj ht₁
      have hload := Call.run_eq_ok_iff.1 hload
      cases request_of_dispatch hdisp with
      | robots => exact absurd ht (by simp)
      | head => exact ⟨d, b, rfl, hload⟩
      | content => exact ⟨d, b, rfl, hload⟩

lemma saveAndPop_db (hs : saveAndPop cfg id h d s = .ok (h', log, s')) :
    ∃ v, d.url.normalize = .ok v ∧
      s'.db = s.db.update v.get (({ d with url := v } : Doc).bson cfg.unset) := by
  simp only [saveAndPop, bind_eq_ok] at hs
  obtain ⟨⟨d', db⟩, hsave, ⟨u, c⟩, -, hs⟩ := hs
  obtain ⟨rfl, rfl, rfl⟩ := ok_triple hs
  rw [Call.run_eq_ok_iff, Doc.save, bind_eq_ok] at hsave
  obtain ⟨d₂, hprep, hsave⟩ := hsave
  obtain ⟨rfl, rfl⟩ := Prod.mk.inj (Except.ok.inj hsave)
  rw [Doc.prepare] at hprep
  split at hprep
  · exact absurd hprep (by simp)
  · rw [bind_eq_ok] at hprep
    obtain ⟨v, hnorm, hprep⟩ := hprep
    obtain rfl := Except.ok.inj hprep
    exact ⟨v, hnorm, rfl⟩

/-- The switch of `done` leaves the database alone, or saves the document: at the end of a
successful GET request with what was delivered, and else with the content that it had. -/
lemma settle_db (hs : settle cfg id r h d s = .ok (h', log, s')) :
    (s'.db = s.db ∧ ¬(h.state = .content ∧ r.success = true)) ∨
      ∃ (d' : Doc) (v : Url), (h.state = .head ∨ h.state = .content) ∧ d.url.normalize = .ok v ∧
        s'.db = s.db.update v.get (d'.bson cfg.unset) ∧
        d'.content = if h.state = .content ∧ r.success = true then r.content else d.content := by
  cases hst : h.state with
  | idle => simp [settle, hst] at hs
  | robots =>
      simp only [settle, hst] at hs
      obtain ⟨-, -, rfl⟩ := ok_triple hs
      exact Or.inl ⟨rfl, by simp⟩
  | next =>
      simp only [settle, hst] at hs
      obtain ⟨-, -, rfl⟩ := ok_triple hs
      exact Or.inl ⟨rfl, by simp⟩
  | head =>
      simp only [settle, hst] at hs
      split at hs
      · split at hs
        · obtain ⟨-, -, rfl⟩ := ok_triple hs
          exact Or.inl ⟨rfl, by simp⟩
        · obtain ⟨v, hv, hdb⟩ := saveAndPop_db hs
          exact Or.inr ⟨_, v, Or.inl rfl, hv, hdb, rfl⟩
      · obtain ⟨v, hv, hdb⟩ := saveAndPop_db hs
        exact Or.inr ⟨_, v, Or.inl rfl, hv, hdb, rfl⟩
  | content =>
      simp only [settle, hst] at hs
      split at hs
      · next hsuccess =>
          obtain ⟨v, hv, hdb⟩ := saveAndPop_db hs
          exact Or.inr ⟨_, v, Or.inr rfl, hv, hdb, by simp [hsuccess]⟩
      · next hfail =>
          obtain ⟨v, hv, hdb⟩ := saveAndPop_db hs
          exact Or.inr ⟨_, v, Or.inr rfl, hv, hdb, by simp [hfail]⟩

/-- `done` asks the database that its switch has left. -/
lemma done_settle (hd : done cfg id r h s = .ok (h', log, s', o)) :
    ∃ d d₁ h₁ log₁ s₁ h₂ c₂ c₃, h.doc = some d ∧ finish d r = .ok d₁ ∧
      settle cfg id r h d₁ s = .ok (h₁, log₁, s₁) ∧
      reschedule cfg id r.load h₂ c₂ = .ok (h', c₃, o) ∧ s' = { s₁ with classifier := c₃ } := by
  rw [done] at hd
  split at hd
  · exact absurd hd (by simp)
  · next d hdoc =>
      simp only [bind_eq_ok] at hd
      obtain ⟨d₁, hfin, ⟨h₁, log₁, s₁⟩, hset, ⟨h₂, us, c₂⟩, -, ⟨h₃, c₃, o₃⟩, hres, hd⟩ := hd
      obtain ⟨rfl, rfl, hlast⟩ := ok_triple hd
      obtain ⟨rfl, rfl⟩ := Prod.mk.inj hlast
      exact ⟨d, d₁, h₁, log₁, s₁, h₂.clearUrl, c₂, c₃, hdoc, Call.run_eq_ok_iff.1 hfin, hset, hres,
        rfl⟩

lemma content_finish {d' : Doc} (hf : finish d r = .ok d') : d'.content = d.content := by
  simp only [finish, bind_eq_ok] at hf
  obtain ⟨_, -, _, -, _, -, hf⟩ := hf
  rw [← Except.ok.inj hf]

end EasyHandle

namespace Downloads

variable {Q : PriorityQueue hostKey} {cfg : Config} {N id : ℕ} {g g' : Downloads Q} {i : Input}
  {a : Answer} {db : Collection}

/-! ### What was delivered -/

/-- A completed transfer with the content that curl has delivered in it. -/
structure Fetch where
  transfer : Transfer
  message : Message
  body : Str

/-- What curl has delivered: the contents of the transfers that are under way, and the completed
transfers. -/
structure History where
  body : ℕ → Str := fun _ => []
  fetches : List Fetch := []

namespace History

def next (w : History) : Input × Answer → History
  | (.body id buff, _) => { w with body := Function.update w.body id (w.body id ++ buff) }
  | (.complete id m, a) =>
      { body := Function.update w.body id []
        fetches := w.fetches ++
          a.transfer.toList.map fun t => { transfer := t, message := m, body := w.body id } }
  | _ => w

/-- The content `c` is all that a successful GET request has delivered whose URL has the normal form
`k`. -/
def Delivered (w : History) (k c : Str) : Prop :=
  ∃ f ∈ w.fetches, f.transfer.state = .content ∧ f.message.result = 0 ∧ f.message.httpCode = 200 ∧
    f.body = c ∧ ∃ v, f.transfer.request.normalize = .ok v ∧ v.get = k

/-- The value `v` was stored under `k` from the beginning, or it was delivered for it. -/
def Known (w : History) (db : Collection) (k : Str) (v : Value) : Prop :=
  (∃ o, db k = some o ∧ o .content = some v) ∨
    ∃ c, v = .binData c ∧ c.length ≤ contentSizeLimit ∧ w.Delivered k c

variable {w : History}

lemma Known.next {k : Str} {v : Value} (h : w.Known db k v) (p : Input × Answer) :
    (w.next p).Known db k v := by
  refine h.imp_right fun hc => ?_
  obtain ⟨c, hv, hle, f, hf, hrest⟩ := hc
  refine ⟨c, hv, hle, f, ?_, hrest⟩
  obtain ⟨i, a⟩ := p
  cases i with
  | complete id m => exact List.mem_append_left _ hf
  | _ => exact hf

end History

/-- The history of a run. -/
def history (l : List (Input × Answer)) : History := l.foldl History.next {}

/-- A document of a page request has no content, or one that is known for its URL. -/
def DocsKnown (w : History) (db : Collection) (g : GlobalInfo Q) : Prop :=
  ∀ id t d, g.multi id = some t → t.state = .head ∨ t.state = .content →
    (g.handles id).doc = some d → d.content = [] ∨ w.Known db d.url.get (.binData d.content)

/-- All contents of a collection are known. -/
def StoreKnown (w : History) (db c : Collection) : Prop :=
  ∀ k o v, c k = some o → o .content = some v → w.Known db k v

/-- What holds between the callbacks. -/
structure Sound (N : ℕ) (db : Collection) (g : Downloads Q) (w : History) : Prop where
  inv : GlobalInfo.Inv N g.toGlobalInfo
  hosts : ∀ u ∈ g.classifier.contents, u.host ≠ []
  /-- The buffer of a transfer holds what was delivered in it. -/
  buffer : ∀ id t, g.multi id = some t → g.contentOs id = w.body id ∧
    g.contentDlBytes id = (w.body id).length ∧
    (g.aborted id = false → (w.body id).length ≤ contentSizeLimit)
  silent : ∀ id, g.multi id = none → w.body id = []
  stored : StoreKnown w db g.db
  docs : DocsKnown w db g.toGlobalInfo

lemma sound_new (db : Collection) (N : ℕ) : Sound N db (new Q db N) {} where
  inv := GlobalInfo.inv_new db N
  hosts u hu := by
    rw [new, GlobalInfo.new, UrlClassifier.contents_new] at hu
    exact absurd hu (Multiset.notMem_zero u)
  buffer id t ht := absurd ht (by simp [new, GlobalInfo.new])
  silent _ _ := rfl
  stored k o v ho hv := Or.inl ⟨o, ho, hv⟩
  docs id t d ht := absurd ht (by simp [new, GlobalInfo.new])

section Steps

/-- What is left in a balance was there or came in. -/
lemma mem_of_balance {α : Type} {x : α} {old inn out new : Multiset α} (h : old + inn = out + new)
    (hx : x ∈ new) : x ∈ old + inn := by
  rw [h]
  exact Multiset.mem_add.2 (Or.inr hx)

variable {w : History} {c : Collection} {h h' : EasyHandle} {o : Option Transfer} {t : Transfer}
  {d : Doc} {p : Input × Answer}

lemma StoreKnown.next (h : StoreKnown w db c) (p : Input × Answer) : StoreKnown (w.next p) db c :=
  fun k o v ho hv => (h k o v ho hv).next p

lemma DocsKnown.next {g : GlobalInfo Q} (h : DocsKnown w db g) (p : Input × Answer) :
    DocsKnown (w.next p) db g :=
  fun id t d ht hst hd => (h id t d ht hst hd).imp_right fun hk => hk.next p

/-- The document of a new page request comes from the database. -/
lemma known_of_reschedule {cl cl' : UrlClassifier Q} (hc : StoreKnown w db c)
    (hr : h.reschedule cfg id c.answer cl = .ok (h', cl', some t))
    (ht : t.state = .head ∨ t.state = .content) (hd : h'.doc = some d) :
    d.content = [] ∨ w.Known db d.url.get (.binData d.content) := by
  obtain ⟨d', b, hd', hload⟩ := EasyHandle.reschedule_loaded hr ht
  obtain rfl := Option.some.inj (hd.symm.trans hd')
  refine (Doc.content_loadWith hload).imp_right fun hstored => ?_
  obtain ⟨o, ho, hv⟩ := hstored
  exact hc _ o _ ho hv

lemma DocsKnown.turn {g : GlobalInfo Q} {s : Shared Q} (hg : DocsKnown w db g)
    (hnew : ∀ t d, o = some t → t.state = .head ∨ t.state = .content → h'.doc = some d →
      d.content = [] ∨ w.Known db d.url.get (.binData d.content)) :
    DocsKnown w db (g.turn id h' s o) := by
  intro n t d ht hst hd
  by_cases hn : n = id
  · subst hn
    rw [GlobalInfo.multi_turn_self] at ht
    rw [GlobalInfo.handles_turn_self] at hd
    exact hnew t d ht hst hd
  · rw [GlobalInfo.multi_turn_of_ne hn] at ht
    rw [GlobalInfo.handles_turn_of_ne hn] at hd
    exact hg n t d ht hst hd

/-- The scheduler leaves the database and the transfers alone and starts requests with documents
from the database. -/
lemma Sound.reschedule {g₁ : GlobalInfo Q} (hs : Sound N db g w)
    (hr : g.toGlobalInfo.reschedule cfg N (fun _ => g.db.answer) = .ok g₁) :
    g₁.db = g.db ∧ (∀ id t, g.multi id = some t → g₁.multi id = some t) ∧ DocsKnown w db g₁ := by
  have hloop := foldlM_invariant
    (I := fun l (g₁ : GlobalInfo Q) => (∀ id ∈ l, id < N) ∧ GlobalInfo.Inv N g₁ ∧ g₁.db = g.db ∧
      (∀ id t, g.multi id = some t → g₁.multi id = some t) ∧ DocsKnown w db g₁) ?_ hr
    ⟨fun id hid => List.mem_range.1 hid, hs.inv, rfl, fun _ _ ht => ht, hs.docs⟩
  · exact hloop.2.2
  · rintro id l g₁ g₂ ⟨hl, hg₁, hdb, hmulti, hdocs⟩ hbody
    have hid := hl id (by simp)
    have hfree := (hg₁.handles id hid).free
    refine ⟨fun m hm => hl m (List.mem_cons_of_mem id hm), (hg₁.rescheduleIdle hid hbody).1, ?_⟩
    rcases GlobalInfo.rescheduleIdle_ok hfree hbody with ⟨-, rfl⟩ | ⟨hst, h', c', o, hres, rfl⟩
    · exact ⟨hdb, hmulti, hdocs⟩
    · refine ⟨hdb, fun m t ht => ?_, hdocs.turn fun t d ho ht hd => ?_⟩
      · have hmid : m ≠ id := by
          rintro rfl
          exact absurd ((hfree hst).symm.trans (hmulti m t ht)) (by simp)
        rw [GlobalInfo.multi_turn_of_ne hmid]
        exact hmulti m t ht
      · subst ho
        exact known_of_reschedule hs.stored hres ht hd

lemma Sound.push {line : Str} (hs : Sound N db g w)
    (hg : g.Possible (.push line)) (hstep : g.step cfg N (.push line) = .ok (a, g')) :
    Sound N db g' w := by
  rw [step, bind_eq_ok] at hstep
  obtain ⟨⟨log, g₁⟩, hpush, hstep⟩ := hstep
  obtain ⟨-, rfl⟩ := Prod.mk.inj (Except.ok.inj hstep)
  obtain ⟨hinv, hcontents⟩ := hs.inv.step hpush
  rw [GlobalInfo.step, bind_eq_ok] at hpush
  obtain ⟨u, hu, hpush⟩ := hpush
  obtain ⟨rfl, rfl⟩ := Prod.mk.inj (Except.ok.inj hpush)
  refine ⟨hinv, fun v hv => ?_, hs.buffer, hs.silent, hs.stored, hs.docs⟩
  rw [Call.run_eq_ok_iff] at hu
  have hmem := mem_of_balance hcontents hv
  rw [GlobalInfo.Input.pushed, hu] at hmem
  rcases Multiset.mem_add.1 hmem with hv | hv
  · exact hs.hosts v hv
  · rw [Multiset.mem_singleton.1 hv]
    simpa [Possible, hu, Except.toOption] using hg

lemma Sound.tick (hs : Sound N db g w) (hstep : g.step cfg N .tick = .ok (a, g')) :
    Sound N db g' w := by
  rw [step, bind_eq_ok] at hstep
  obtain ⟨⟨log, g₁⟩, htick, hstep⟩ := hstep
  obtain ⟨-, rfl⟩ := Prod.mk.inj (Except.ok.inj hstep)
  obtain ⟨hinv, hcontents⟩ := hs.inv.step htick
  rw [GlobalInfo.step, bind_eq_ok] at htick
  obtain ⟨g₂, hres, htick⟩ := htick
  obtain ⟨rfl, rfl⟩ := Prod.mk.inj (Except.ok.inj htick)
  obtain ⟨hdb, hmulti, hdocs⟩ := hs.reschedule hres
  refine ⟨hinv, fun v hv => ?_, fun n t ht => ?_, fun n hn => ?_, ?_, hdocs⟩
  · refine hs.hosts v ?_
    have hmem := mem_of_balance hcontents hv
    rwa [GlobalInfo.Input.pushed, add_zero] at hmem
  · have ht : g₂.multi n = some t := ht
    cases hold : g.multi n with
    | none =>
        -- the buffers were cleared, and nothing was delivered before
        simp [reset, hold, ht, hs.silent n hold]
    | some t' => simpa [reset, hold] using hs.buffer n t' hold
  · cases hold : g.multi n with
    | none => exact hs.silent n hold
    | some t => exact absurd ((hmulti n t hold).symm.trans hn) (by simp)
  · rw [show (reset _ _).db = g₂.db from rfl, hdb]
    exact hs.stored

lemma Sound.header {buff : Str} (hs : Sound N db g w)
    (hstep : g.step cfg N (.header id buff) = .ok (a, g')) : Sound N db g' w := by
  obtain ⟨-, rfl⟩ := Prod.mk.inj (Except.ok.inj hstep)
  refine ⟨hs.inv, hs.hosts, fun n t ht => ?_, hs.silent, hs.stored, hs.docs⟩
  obtain ⟨hos, hdl, hle⟩ := hs.buffer n t ht
  refine ⟨hos, hdl, fun hab => hle ?_⟩
  by_cases hn : n = id
  · subst hn
    simpa [call, headerWriteCb] using hab
  · simpa [call, headerWriteCb, Function.update_of_ne hn] using hab

lemma call_contentWriteCb (g : Downloads Q) (id : ℕ) (buff : Str) :
    g.call contentWriteCb id buff = { g with
      contentDlBytes := Function.update g.contentDlBytes id (g.contentDlBytes id + buff.length)
      dlBytes := g.dlBytes + buff.length
      contentOs := Function.update g.contentOs id (g.contentOs id ++ buff)
      aborted := Function.update g.aborted id (g.aborted id ||
        (decide (contentSizeLimit < g.contentDlBytes id + buff.length) && 0 != buff.length)) } := by
  simp only [call, contentWriteCb, Function.update_self]
  split
  · next hover => simp [hover]
  · next hfits => simp [hfits]

/-- A part of the content goes to the buffer of its handle; if it is too much then the transfer is
given up. -/
lemma Sound.body {buff : Str} (hs : Sound N db g w) (hg : g.Possible (.body id buff))
    (hstep : g.step cfg N (.body id buff) = .ok (a, g')) :
    Sound N db g' (w.next (.body id buff, a)) := by
  obtain ⟨-, rfl⟩ := Prod.mk.inj (Except.ok.inj hstep)
  obtain ⟨hab, hany⟩ := hg
  obtain ⟨t, ht⟩ : ∃ t, g.multi id = some t := by
    cases ht : g.multi id with
    | none => simp [ht] at hany
    | some t => exact ⟨t, rfl⟩
  obtain ⟨hos, hdl, hle⟩ := hs.buffer id t ht
  rw [call_contentWriteCb]
  refine ⟨hs.inv, hs.hosts, fun n t' ht' => ?_, fun n hn => ?_, hs.stored, hs.docs⟩
  · by_cases hnid : n = id
    · subst hnid
      simp only [History.next, Function.update_self, hos, hdl, List.length_append]
      refine ⟨trivial, trivial, fun hnot => ?_⟩
      by_contra hover
      have hzero : 0 = buff.length := by simpa [hab, not_le.1 hover] using hnot
      exact hover (by rw [← hzero]; exact hle hab)
    · simp only [History.next, Function.update_of_ne hnid]
      exact hs.buffer n t' ht'
  · have hnid : n ≠ id := by
      rintro rfl
      exact absurd (ht.symm.trans hn) (by simp)
    simp only [History.next, Function.update_of_ne hnid]
    exact hs.silent n hn

lemma settledDb_eq {r : Completion} {s s₁ : Shared Q} {d₁ : Doc} {h₁ : EasyHandle}
    {log : List Event} (hd : h.doc = some d) (hfin : EasyHandle.finish d r = .ok d₁)
    (hset : h.settle cfg id r d₁ s = .ok (h₁, log, s₁)) : settledDb cfg id r h s = s₁.db := by
  simp only [settledDb, hd, hfin, Call.run_ok, ok_bind, hset]

/-- The key under which the document of a page request is saved is the one under which it was
loaded. -/
lemma Sound.save_key (hs : Sound N db g w) (ht : g.multi id = some t)
    (hst : t.state = .head ∨ t.state = .content) (hd : (g.handles id).doc = some d) {v : Url}
    (hv : d.url.normalize = .ok v) : t.request.normalize = .ok d.url ∧ v.get = d.url.get := by
  have hid := hs.inv.lt_of_multi ht
  have hserves := (hs.inv.handles id hid).serves t ht
  obtain ⟨horigin, d', hd', hurl⟩ := hserves.page hst
  obtain rfl := Option.some.inj (hd.symm.trans hd')
  have hmem := hs.inv.queues.mem_contents hid (List.mem_of_head? hserves.front)
  obtain ⟨line, hline⟩ := hs.inv.queues.parsed _ hmem
  have hacc := Url.accepted_of_assign hline
  exact ⟨hurl, hacc.get_normalize_thrice (hs.hosts _ hmem) horigin hurl hv⟩

/-- What the switch of `done` stores is known. -/
lemma Sound.settled {m : Message} {r : Completion} {d₁ : Doc} {h₁ : EasyHandle} {log : List Event}
    {s₁ : Shared Q} (hs : Sound N db g w) (hg : g.Possible (.complete id m))
    (ht : g.multi id = some t) (ha : a.transfer = some t) (hr : r = g.completion id m c)
    (hd : (g.handles id).doc = some d) (hfin : EasyHandle.finish d r = .ok d₁)
    (hset : (g.handles id).settle cfg id r d₁ g.toShared = .ok (h₁, log, s₁)) :
    StoreKnown (w.next (.complete id m, a)) db s₁.db := by
  have hserves := (hs.inv.handles id (hs.inv.lt_of_multi ht)).serves t ht
  rcases EasyHandle.settle_db hset with ⟨hdb, -⟩ | ⟨d', v, hst, hv, hdb, hcontent⟩
  · rw [hdb]
    exact hs.stored.next _
  · rw [hserves.state] at hst hcontent
    rw [EasyHandle.url_finish hfin] at hv
    obtain ⟨hrequest, hkey⟩ := hs.save_key ht hst hd hv
    -- the content that is saved, if there is any, is known
    have hnew : d'.content = [] ∨
        (w.next (.complete id m, a)).Known db d.url.get (.binData d'.content) := by
      rw [hcontent]
      split
      · next hsuccess =>
          obtain ⟨hstate, hsuccess⟩ := hsuccess
          rw [hr, Completion.success, Bool.and_eq_true, beq_iff_eq, beq_iff_eq] at hsuccess
          have hab : g.aborted id = false := Bool.eq_false_iff.2 fun hab => hg hab hsuccess.1
          obtain ⟨hos, -, hle⟩ := hs.buffer id t ht
          refine Or.inr (Or.inr ⟨w.body id, by rw [hr]; exact congrArg _ hos, hle hab, ?_⟩)
          refine ⟨{ transfer := t, message := m, body := w.body id }, ?_, hstate, hsuccess.1,
            hsuccess.2, rfl, d.url, hrequest, rfl⟩
          simp [History.next, ha]
      · rw [EasyHandle.content_finish hfin]
        exact (hs.docs id t d ht hst hd).imp_right fun hk => hk.next _
    intro k o x ho hx
    rw [hdb, Collection.update] at ho
    by_cases hk : k = v.get
    · subst hk
      rw [Function.update_self] at ho
      obtain rfl := Option.some.inj ho
      simp only [Doc.bson] at hx
      split at hx
      · -- the old content stays
        rw [Option.none_or, Option.bind_eq_some_iff] at hx
        obtain ⟨old, hold, hx⟩ := hx
        exact (hs.stored _ old x hold hx).next _
      · next hne =>
          obtain rfl := Option.some.inj hx
          rw [hkey]
          exact hnew.resolve_left fun hnil => hne (by rw [hnil]; rfl)
    · rw [Function.update_of_ne hk] at ho
      exact (hs.stored k o x ho hx).next _

lemma Sound.complete {m : Message} (hs : Sound N db g w) (hg : g.Possible (.complete id m))
    (hstep : g.step cfg N (.complete id m) = .ok (a, g')) :
    Sound N db g' (w.next (.complete id m, a)) := by
  rw [step, bind_eq_ok] at hstep
  obtain ⟨⟨log, g₁⟩, hcomplete, hstep⟩ := hstep
  obtain ⟨rfl, rfl⟩ := Prod.mk.inj (Except.ok.inj hstep)
  obtain ⟨hinv, hcontents⟩ := hs.inv.step hcomplete
  obtain ⟨t, h', s', o, ht, hdone, rfl⟩ := GlobalInfo.checkRunCount_ok hcomplete
  obtain ⟨d, d₁, h₁, log₁, s₁, h₂, c₂, c₃, hd, hfin, hset, hres, rfl⟩ :=
    EasyHandle.done_settle hdone
  have hdb : settledDb cfg id (g.completion id m g.db) (g.handles id) g.toShared = s₁.db :=
    settledDb_eq hd hfin hset
  have hstored := hs.settled hg ht (a := { events := log, transfer := g.multi id }) ht rfl hd hfin
    hset
  refine ⟨hinv, fun v hv => ?_, fun n t' ht' => ?_, fun n hn => ?_, hstored, ?_⟩
  · refine hs.hosts v ?_
    have hmem := mem_of_balance hcontents hv
    rwa [GlobalInfo.Input.pushed, add_zero] at hmem
  · by_cases hnid : n = id
    · subst hnid
      have ht' : o = some t' := GlobalInfo.multi_turn_self.symm.trans ht'
      simp [reset, History.next, GlobalInfo.multi_turn_self, ht']
    · have ht' : g.multi n = some t' := by
        rw [← ht']
        exact (GlobalInfo.multi_turn_of_ne hnid).symm
      simpa [reset, History.next, Function.update_of_ne hnid, hnid] using hs.buffer n t' ht'
  · by_cases hnid : n = id
    · subst hnid
      exact Function.update_self ..
    · have hn : g.multi n = none := by
        rw [← hn]
        exact (GlobalInfo.multi_turn_of_ne hnid).symm
      simp only [History.next, Function.update_of_ne hnid]
      exact hs.silent n hn
  · refine (hs.docs.next _).turn fun t' d' ho ht' hd' => ?_
    subst ho
    have hload : h₂.reschedule cfg id s₁.db.answer c₂ = .ok (h', c₃, some t') := by
      rw [← hdb]
      exact hres
    exact known_of_reschedule hstored hload ht' hd'

end Steps

/-- Every reaction keeps the invariant. -/
lemma Sound.step {w : History} (hs : Sound N db g w) (hg : g.Possible i)
    (hstep : g.step cfg N i = .ok (a, g')) : Sound N db g' (w.next (i, a)) := by
  cases i with
  | push line => exact hs.push hg hstep
  | tick => exact hs.tick hstep
  | header id buff => exact hs.header hstep
  | body id buff => exact hs.body hg hstep
  | complete id m => exact hs.complete hg hstep

lemma step_of_machine (hexec : (machine cfg N).exec g i = some (a, g')) :
    g.step cfg N i = .ok (a, g') := ok_of_toOption hexec

lemma sound_of_run {l : List (Input × Answer)}
    (h : (machine cfg N).Run Possible (new Q db N) l g) : Sound N db g (history l) :=
  h.refinement History.next (fun _ _ _ _ _ hs hg hexec => hs.step hg (step_of_machine hexec))
    (sound_new db N)

/-- In every run, whatever the order of the callbacks of the handles is, the content that is stored
under a URL was there from the beginning, or it is all that one successful GET request for the URL
has delivered and no more than `CONTENT_SIZE_LIMIT` bytes; and a successful GET request that has
delivered something has it stored when it is completed. -/
theorem stored_content {l : List (Input × Answer)}
    (h : (machine cfg N).Run Possible (new Q db N) l g) :
    (∀ k o v, g.db k = some o → o .content = some v → (history l).Known db k v) ∧
      ∀ id t m a g', g.multi id = some t → t.state = .content → m.result = 0 → m.httpCode = 200 →
        (history l).body id ≠ [] → g.step cfg N (.complete id m) = .ok (a, g') →
        ∃ v o, t.request.normalize = .ok v ∧ g'.db v.get = some o ∧
          o .content = some (.binData ((history l).body id)) := by
  have hs := sound_of_run h
  refine ⟨hs.stored, fun id t m a g' ht hst hresult hcode hne hstep => ?_⟩
  rw [step, bind_eq_ok] at hstep
  obtain ⟨⟨log, g₁⟩, hcomplete, hstep⟩ := hstep
  obtain ⟨rfl, rfl⟩ := Prod.mk.inj (Except.ok.inj hstep)
  obtain ⟨t', h', s', o, ht', hdone, rfl⟩ := GlobalInfo.checkRunCount_ok hcomplete
  obtain rfl := Option.some.inj (ht.symm.trans ht')
  obtain ⟨d, d₁, h₁, log₁, s₁, h₂, c₂, c₃, hd, hfin, hset, -, rfl⟩ := EasyHandle.done_settle hdone
  have hserves := (hs.inv.handles id (hs.inv.lt_of_multi ht)).serves t ht
  have hsuccess : (g.handles id).state = .content ∧ (g.completion id m
      (settledDb cfg id (g.completion id m g.db) (g.handles id) g.toShared)).success = true :=
    ⟨hserves.state.trans hst, by simp [Completion.success, completion, hresult, hcode]⟩
  rcases EasyHandle.settle_db hset with ⟨-, hfail⟩ | ⟨d', v, -, hv, hdb, hcontent⟩
  · exact absurd hsuccess hfail
  · rw [if_pos hsuccess] at hcontent
    rw [EasyHandle.url_finish hfin] at hv
    obtain ⟨hrequest, hkey⟩ := hs.save_key ht (Or.inr hst) hd hv
    have hbody : d'.content = (history l).body id := hcontent.trans (hs.buffer id t ht).1
    refine ⟨d.url, fun f => (d'.bson cfg.unset f).or ((g.db v.get).bind (· f)), hrequest, ?_, ?_⟩
    · rw [← hkey]
      exact (congrFun hdb v.get).trans (Function.update_self ..)
    · simp [Doc.bson, hbody, hne]

/-- A message about a transfer without redirections. -/
def reply (effUrl : String) (httpCode : Int32) : Message where
  effUrl := lit effUrl
  result := 0
  httpCode := httpCode

/-- A page whose content comes in two parts, between the callbacks of another handle. -/
def page : List Input :=
  [.push (lit "http://a/x"), .push (lit "http://b/y"), .tick,
    .complete 0 (reply "http://a/robots.txt" 404), .body 1 (lit "junk"), .header 0 (lit "OK"),
    .complete 0 (reply "http://a/x" 200), .body 0 (lit "hi"),
    .complete 1 (reply "http://b/robots.txt" 404), .body 0 (lit "!"),
    .complete 0 (reply "http://a/x" 200)]

theorem stored_content_page :
    ∃ (l : List (Input × Answer)) (g : Downloads (PriorityQueue.ofList hostKey)) (o : Obj),
      (machine GlobalInfo.plainConfig 2).Run Possible (new _ (fun _ => none) 2) l g ∧
        g.db (lit "http://a/x") = some o ∧ o .content = some (.binData (lit "hi!")) ∧
        (history l).Known (fun _ => none) (lit "http://a/x") (.binData (lit "hi!")) := by
  obtain ⟨l, g, hrun, hp⟩ := Machine.exists_run_of_any
    (M := (machine GlobalInfo.plainConfig 2).guard Possible) (G := Machine.Free)
    (s := new (PriorityQueue.ofList hostKey) (fun _ => none) 2)
    (p := fun x => (x.2.db (lit "http://a/x")).any fun o =>
      o .content == some (.binData (lit "hi!"))) page (fun _ _ _ => trivial) (by decide +kernel)
  have hrun := Machine.run_of_guard hrun
  cases ho : g.db (lit "http://a/x") with
  | none =>
      rw [ho] at hp
      exact absurd hp (by simp)
  | some o =>
      rw [ho] at hp
      have hcontent : o .content = some (.binData (lit "hi!")) := by simpa using hp
      exact ⟨l, g, o, hrun, ho, hcontent, (stored_content hrun).1 _ o _ ho hcontent⟩

end Downloads

end Mycelium
