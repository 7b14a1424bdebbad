import Mycelium.Common.Doc
import Mycelium.Crawler.Robots
import Mycelium.Crawler.UrlClassifier

/-!
# The state machine of a handle

A handle of the crawler takes the URLs of its child queue through the requests for `robots.txt`,
HEAD and GET.  `EasyHandle::reschedule` starts the next request, and `EasyHandle::done` is called
when one has been completed.  What curl and the database answer is an input; so is what
`Doc::load_url` returns, since the state machine does not rely on it.
-/

namespace Mycelium

open Lib Bson

/-! ### Exceptions -/

/-- The calls of the state machine that can throw. -/
inductive Call where
  | empty
  | peek
  | pop
  | url
  | load
  | save
  | state
  | multi
deriving DecidableEq, Repr

/-- An exception with the call that threw it. -/
structure Thrown where
  call : Call
  exn : Exn

namespace Call

variable {α β : Type}

/-- A call that throws or returns. -/
def run (k : Call) : Except Exn α → Except Thrown α
  | .ok a => .ok a
  | .error e => .error { call := k, exn := e }

/-- A call that throws or returns, and changes the object that it is called on. -/
def step (k : Call) (r : Except Exn α × β) : Except Thrown (α × β) := do
  let a ← k.run r.1
  .ok (a, r.2)

lemma run_ok {k : Call} {a : α} : k.run (.ok a) = .ok a := rfl

lemma step_ok {k : Call} {a : α} {b : β} : k.step (.ok a, b) = .ok (a, b) := rfl

@[simp] lemma run_eq_ok_iff {k : Call} {x : Except Exn α} {a : α} :
    k.run x = .ok a ↔ x = .ok a := by
  cases x <;> simp [run]

@[simp] lemma step_eq_ok_iff {k : Call} {r : Except Exn α × β} {a : α} {b : β} :
    k.step r = .ok (a, b) ↔ r = (.ok a, b) := by
  obtain ⟨x, c⟩ := r
  cases x <;> simp [step, run, bind, Except.bind]

end Call

lemma ok_triple {ε α β γ : Type} {a a' : α} {b b' : β} {c c' : γ}
    (h : (.ok (a, b, c) : Except ε (α × β × γ)) = .ok (a', b', c')) : a = a' ∧ b = b' ∧ c = c' := by
  simpa using h

/-- The exception, if there is one, does not come from `pop`. -/
def PopSucceeds {α : Type} (x : Except Thrown α) : Prop :=
  ∀ e, x ≠ .error { call := .pop, exn := e }

/-- The exceptions of the URL library and of the database. -/
def Call.outer : Call → Bool
  | .url | .load | .save => true
  | .empty | .peek | .pop | .state | .multi => false

/-- Every exception comes from the URLs or from the database: the calls on the classifier and on
curl succeed, and no state is unknown. -/
def Orderly {α : Type} (x : Except Thrown α) : Prop := ∀ t, x = .error t → t.call.outer = true

namespace Orderly

variable {α β : Type}

lemma ok (a : α) : Orderly (.ok a) := fun _ h => absurd h (by simp)

lemma run {k : Call} (h : k.outer = true) (x : Except Exn α) : Orderly (k.run x) := by
  cases x with
  | ok a => exact ok a
  | error e =>
      intro t ht
      rw [← Except.error.inj ht]
      exact h

lemma bind {x : Except Thrown α} {f : α → Except Thrown β} (hx : Orderly x)
    (hf : ∀ a, x = .ok a → Orderly (f a)) : Orderly (x >>= f) := by
  cases x with
  | ok a => exact hf a rfl
  | error e => exact fun t ht => hx t (congrArg Except.error (Except.error.inj ht))

/-- A loop whose body is orderly where an invariant holds. -/
lemma foldlM {f : β → α → Except Thrown β} {I : β → Prop} {l : List α} {b : β}
    (hbody : ∀ a ∈ l, ∀ b, I b → Orderly (f b a))
    (hstep : ∀ a ∈ l, ∀ b b', I b → f b a = .ok b' → I b') (hb : I b) :
    Orderly (l.foldlM f b) := by
  induction l generalizing b with
  | nil => exact ok b
  | cons a l ih =>
      rw [List.foldlM_cons]
      refine (hbody a (by simp) b hb).bind fun b' hb' => ?_
      exact ih (fun a' ha' => hbody a' (List.mem_cons_of_mem a ha'))
        (fun a' ha' => hstep a' (List.mem_cons_of_mem a ha')) (hstep a (by simp) b b' hb hb')

lemma popSucceeds {x : Except Thrown α} (h : Orderly x) : PopSucceeds x :=
  fun _ he => absurd (h _ he) (by simp [Call.outer])

end Orderly

/-! ### The data -/

/-- What comes from generated code and from the lexer. -/
structure Config where
  /-- `content_type::UNSET`. -/
  unset : Int32
  /-- `content_type::UNRECOGNIZED`. -/
  unrecognized : Int32
  /-- `content_type::EMPTY`. -/
  emptyType : Int32
  /-- The content type that `utils::parse_http_headers` finds. -/
  contentType : Str → Int32
  /-- `Robots_entry::yylex` on a text: its result with the records, or `none` when it throws. -/
  yylex : Str → Option (Int × List Robots.UasRules)

/-- `EasyHandle::acceptable`. -/
def Config.acceptable (cfg : Config) (ctype : Int32) : Bool :=
  cfg.unrecognized < ctype && ctype < cfg.emptyType

/-- `user_agent`. -/
def userAgent : Str := lit "mycelium web crawler - https://github.com/larroy/mycelium"

/-- An answer to `Doc::load_url`: the documents of the cursor, and what is returned. -/
structure Load where
  cursor : List Obj := []
  found : Bool := false

/-- `EasyHandle::state_t`. -/
inductive HState where
  | idle
  | robots
  | next
  | head
  | content
deriving DecidableEq, Repr

/-- A transfer of curl: the state it was started in, the URL that was handed over, and the URL in
the queue that it is for, which only the statements use. -/
structure Transfer where
  state : HState
  request : Url
  origin : Url

/-- `CURLOPT_URL`. -/
def Transfer.text (t : Transfer) : Str := t.request.get

/-- A robots entry with the host whose `robots.txt` it was parsed from, which only the statements
use. -/
structure Fetched where
  entry : Robots.Entry
  host : Str

/-- `class EasyHandle`; its buffers are part of `Completion`. -/
structure EasyHandle where
  state : HState := .idle
  doc : Option Doc := none
  robotsEntry : Option Fetched := none

/-- What is known when a transfer has been completed, and the answers of the database until the
next one is started. -/
structure Completion where
  /-- `CURLINFO_EFFECTIVE_URL`. -/
  effUrl : Str
  /-- The `CURLcode`. -/
  result : Int32
  /-- `curl_error`. -/
  curlError : Str := []
  /-- `CURLINFO_RESPONSE_CODE`. -/
  httpCode : Int32
  /-- `CURLINFO_FILETIME`. -/
  filetime : Int64 := -1
  /-- `gettimeofday`. -/
  time : Int64 := 0
  /-- `m_headers_os`. -/
  headers : Str := []
  /-- `m_content_os`. -/
  content : Str := []
  /-- The answers in the loop of `done`, by the turns that are left. -/
  loads : ℕ → Url → Load
  /-- The answer in `reschedule`. -/
  load : Url → Load

/-- `result == CURLE_OK && doc->http_code == 200`. -/
def Completion.success (r : Completion) : Bool := r.result == 0 && r.httpCode == 200

/-- What happens in `done` to the database and to the queue. -/
inductive Event where
  | saved (d : Doc)
  | popped (u : Url)

/-- The part of `GlobalInfo` that the handles write. -/
structure Shared (Q : PriorityQueue hostKey) where
  classifier : UrlClassifier Q
  db : Collection
  ndocsSaved : ℕ := 0

/-- `Doc::load_url` with a given answer. -/
def Doc.loadWith (d : Doc) (a : Load) (u : Url) : Except Exn (Doc × Bool) := do
  let url ← u.normalize
  let r ← { d with url := url }.loadLoop false a.cursor
  .ok (r.1, a.found)

/-- The code gives one of these answers. -/
lemma Doc.loadUrl_eq_loadWith {d : Doc} {c : Collection} {u url : Url}
    (h : u.normalize = .ok url) :
    d.loadUrl c u = d.loadWith { cursor := c.query url.get, found := false } u := by
  simp only [loadUrl, loadWith, h]
  rfl

lemma Doc.url_readObj {d d' : Doc} {o : Obj} (h : d.readObj o = .ok d') : d'.url = d.url := by
  simp only [readObj, bind_eq_ok] at h
  iterate 16 obtain ⟨_, -, h⟩ := h
  rw [← Except.ok.inj h]

lemma Doc.url_loadLoop {d : Doc} {b : Bool} {cursor : List Obj} {r : Doc × Bool}
    (h : d.loadLoop b cursor = .ok r) : r.1.url = d.url := by
  induction cursor generalizing d b with
  | nil => rw [← Except.ok.inj h]
  | cons o cursor ih =>
      rw [loadLoop, bind_eq_ok] at h
      obtain ⟨d', hread, h⟩ := h
      rw [ih h, url_readObj hread]

lemma Doc.loadWith_ok {d d' : Doc} {a : Load} {u : Url} {b : Bool}
    (h : d.loadWith a u = .ok (d', b)) : u.normalize = .ok d'.url ∧ b = a.found := by
  simp only [loadWith, bind_eq_ok] at h
  obtain ⟨url, hnorm, r, hloop, h⟩ := h
  obtain ⟨rfl, rfl⟩ := Prod.mk.inj (Except.ok.inj h)
  rw [url_loadLoop hloop]
  exact ⟨hnorm, rfl⟩

namespace EasyHandle

variable {Q : PriorityQueue hostKey}

/-! ### `reschedule` -/

/-- `global->classifier.empty_top() && global->classifier.empty(id)`. -/
def exhausted (c : UrlClassifier Q) (id : ℕ) : Except Exn Bool :=
  if c.emptyTop then c.emptyAt id else .ok false

/-- The URL of `robots.txt`, from the URL of the document. -/
def robotsUrl (u : Url) (host : Str) : Except Exn Url := do
  let u ← u.setScheme (lit "http")
  let u ← u.setHost host
  .ok (u.setPath (lit "robots.txt"))

/-- The switch of `reschedule`, with `get_robots`, `head` and `get_content`; `u` is the URL in the
queue and `url` its normal form. -/
def dispatch (h : EasyHandle) (d : Doc) (u url : Url) : Except Thrown (EasyHandle × Transfer) :=
  match h.state with
  | .idle | .robots => do
      let request ← Call.url.run (robotsUrl d.url url.host)
      .ok ({ h with state := .robots, doc := some { d with url := request } },
        { state := .robots, request := request, origin := u })
  | .head => .ok ({ h with doc := some d }, { state := .head, request := url, origin := u })
  | .content => .ok ({ h with doc := some d }, { state := .content, request := url, origin := u })
  | .next => .error { call := .state, exn := .runtimeError (lit "unknown state in reschedule") }

/-- `EasyHandle::reschedule`, with the transfer that it adds. -/
def reschedule (cfg : Config) (id : ℕ) (load : Url → Load) (h : EasyHandle)
    (c : UrlClassifier Q) : Except Thrown (EasyHandle × UrlClassifier Q × Option Transfer) := do
  let stop ← Call.empty.run (exhausted c id)
  if stop then .ok (h, c, none)
  else do
    let (u, c) ← Call.peek.step (c.peek id)
    let url ← Call.url.run u.normalize
    let (d, preexisting) ← Call.load.run ((Doc.new cfg.unset).loadWith (load url) url)
    let h := if preexisting then { h with state := .content } else h
    let (h, t) ← h.dispatch d u url
    .ok (h, c, some t)

/-! ### `done` -/

/-- The beginning of `done`, which fills the document. -/
def finish (d : Doc) (r : Completion) : Except Exn Doc := do
  let effUrl ← Url.assign r.effUrl
  let effUrl ← effUrl.normalize
  let same ← effUrl.eq d.url
  .ok { d with
    effUrl := if same then d.effUrl else effUrl
    curlCode := r.result, curlError := r.curlError, httpCode := r.httpCode
    modified := r.filetime, crawled := r.time }

/-- The entry that is made when the request for `robots.txt` has been completed. -/
def newEntry (cfg : Config) (r : Completion) : Robots.Entry :=
  if r.success then
    match cfg.yylex r.content with
    | some (res, rules) =>
        if res < 0 then { state := .eparse } else { state := .present, uasRulesAll := rules }
    | none => { state := .eparse }
  else { state := .notAvailable }

/-- The document is saved and the URL popped. -/
def saveAndPop (cfg : Config) (id : ℕ) (h : EasyHandle) (d : Doc) (s : Shared Q) :
    Except Thrown (EasyHandle × List Event × Shared Q) := do
  let (d, db) ← Call.save.run (d.save cfg.unset s.db)
  let (u, c) ← Call.pop.step (s.classifier.pop id)
  .ok ({ h with state := .next, doc := some d }, [.saved d, .popped u],
    { classifier := c, db := db, ndocsSaved := s.ndocsSaved + 1 })

/-- The switch of `done`. -/
def settle (cfg : Config) (id : ℕ) (r : Completion) (h : EasyHandle) (d : Doc) (s : Shared Q) :
    Except Thrown (EasyHandle × List Event × Shared Q) :=
  match h.state with
  | .idle => .error { call := .state, exn := .runtimeError (lit "done called on IDLE handle") }
  | .robots =>
      -- nothing is popped: the target URL is still in the queue
      .ok ({ h with
        state := .next
        doc := some { d with content := [] }
        robotsEntry := some { entry := newEntry cfg r, host := d.url.host } }, [], s)
  | .head =>
      if r.success then
        let d := { d with headers := r.headers, contentType := cfg.contentType r.headers }
        if cfg.acceptable d.contentType then
          .ok ({ h with state := .content, doc := some d }, [], s)
        -- not acceptable
        else saveAndPop cfg id h { d with httpCode := 406 } s
      else saveAndPop cfg id h d s
  | .content =>
      if r.success then
        saveAndPop cfg id h
          { d with
            headers := r.headers, content := r.content, contentType := cfg.contentType r.headers } s
      else saveAndPop cfg id h d s
  | .next => .ok ({ h with doc := some d }, [], s)

/-- The robots check: the entry says nothing against the URL. -/
def passes (f : Fetched) (url : Url) : Bool :=
  f.entry.triedButFailed ||
    (f.entry.state == .present &&
      Robots.pathAllowed f.entry.uasRulesAll userAgent url.path.get)

/-- The body of the loop of `done`: the state for the URL, or `none` when it is not allowed. -/
def verdict (entry : Option Fetched) (d : Doc) (url : Url) (preexisting : Bool) : Option HState :=
  if preexisting then some .content
  else
    match entry with
    | none => some .robots
    | some f =>
        -- `load_url` has just given `d` the URL `url`
        if d.url.host ≠ url.host then some .robots
        else if passes f url then some .head
        else none

/-- The loop of `done`: the state, the document, the URLs that were not allowed and the
classifier.  Every turn pops a URL, so that the length of the queue bounds the turns. -/
def nextLoop (entry : Option Fetched) (id : ℕ) (loads : ℕ → Url → Load) :
    ℕ → Doc → UrlClassifier Q → Except Thrown (HState × Doc × List Url × UrlClassifier Q)
  | 0, d, c => .ok (.idle, d, [], c)
  | fuel + 1, d, c => do
      let stop ← Call.empty.run (c.emptyAt id)
      if stop then .ok (.idle, d, [], c)
      else do
        let (u, c) ← Call.peek.step (c.peek id)
        let url ← Call.url.run u.normalize
        let (d, preexisting) ← Call.load.run (d.loadWith (loads fuel url) url)
        match verdict entry d url preexisting with
        | some state => .ok (state, d, [], c)
        | none => do
            let (_, c) ← Call.pop.step (c.pop id)
            let (state, d, us, c) ← nextLoop entry id loads fuel d c
            .ok (state, d, u :: us, c)

/-- `if (state == NEXT) …`. -/
def nextUrl (id : ℕ) (loads : ℕ → Url → Load) (h : EasyHandle) (c : UrlClassifier Q) :
    Except Thrown (EasyHandle × List Url × UrlClassifier Q) :=
  match h.state, h.doc with
  | .next, some d => do
      let (state, d, us, c) ← nextLoop h.robotsEntry id loads (c.deques id).length d c
      .ok ({ h with state := state, doc := some d }, us, c)
  | _, _ => .ok (h, [], c)

/-- `doc->url.clear()`. -/
def clearUrl (h : EasyHandle) : EasyHandle :=
  { h with doc := h.doc.map fun d => { d with url := {} } }

/-- `EasyHandle::done`, with what it did to the database and the queue, and the transfer that its
call of `reschedule` adds. -/
def done (cfg : Config) (id : ℕ) (r : Completion) (h : EasyHandle) (s : Shared Q) :
    Except Thrown (EasyHandle × List Event × Shared Q × Option Transfer) :=
  match h.doc with
  | none => .error { call := .state, exn := .logicError (lit "null document") }
  | some d => do
      let d ← Call.url.run (finish d r)
      let (h, log, s) ← settle cfg id r h d s
      let (h, us, c) ← nextUrl id r.loads h s.classifier
      let (h, c, t) ← reschedule cfg id r.load h.clearUrl c
      .ok (h, log ++ us.map .popped, { s with classifier := c }, t)

/-! ### What `reschedule` does -/

variable {cfg : Config} {id : ℕ} {h h' : EasyHandle} {c c' : UrlClassifier Q} {s s' : Shared Q}
  {d : Doc} {u url : Url} {t : Transfer} {r : Completion} {log : List Event}

/-- The request that is started for the URL `u` of the queue, with normal form `url`, when
`load_url` has answered `found` and left the document `d`. -/
inductive Request (h : EasyHandle) (found : Bool) (d : Doc) (u url : Url) :
    EasyHandle → Transfer → Prop
  | robots {request : Url} : h.state = .idle ∨ h.state = .robots → found = false →
      robotsUrl d.url url.host = .ok request →
      Request h found d u url { h with state := .robots, doc := some { d with url := request } }
        { state := .robots, request := request, origin := u }
  | head : h.state = .head → found = false →
      Request h found d u url { h with state := .head, doc := some d }
        { state := .head, request := url, origin := u }
  | content : h.state = .content ∨ found = true →
      Request h found d u url { h with state := .content, doc := some d }
        { state := .content, request := url, origin := u }

lemma request_of_dispatch {found : Bool}
    (hd : (if found then { h with state := .content } else h).dispatch d u url = .ok (h', t)) :
    Request h found d u url h' t := by
  cases found with
  | true =>
      obtain ⟨rfl, rfl⟩ := Prod.mk.inj (Except.ok.inj hd)
      exact .content (Or.inr rfl)
  | false =>
      -- the two labels of the first case of the switch
      have hrobots : h.state = .idle ∨ h.state = .robots → Request h false d u url h' t := by
        intro hst
        have hd' : (do
            let request ← Call.url.run (robotsUrl d.url url.host)
            .ok (({ h with state := .robots, doc := some { d with url := request } } : EasyHandle),
              ({ state := .robots, request := request, origin := u } : Transfer)))
              = (.ok (h', t) : Except Thrown _) := by
          rcases hst with hst | hst <;> simpa [dispatch, hst] using hd
        rw [bind_eq_ok] at hd'
        obtain ⟨request, hreq, hd'⟩ := hd'
        obtain ⟨rfl, rfl⟩ := Prod.mk.inj (Except.ok.inj hd')
        exact .robots hst rfl (Call.run_eq_ok_iff.1 hreq)
      cases hst : h.state with
      | idle => exact hrobots (Or.inl hst)
      | robots => exact hrobots (Or.inr hst)
      | next => simp [dispatch, hst] at hd
      | head =>
          simp only [dispatch, hst, Bool.false_eq_true, if_false, Except.ok.injEq,
            Prod.mk.injEq] at hd
          obtain ⟨rfl, rfl⟩ := hd
          exact .head hst rfl
      | content =>
          simp only [dispatch, hst, Bool.false_eq_true, if_false, Except.ok.injEq,
            Prod.mk.injEq] at hd
          obtain ⟨rfl, rfl⟩ := hd
          exact .content (Or.inl hst)

/-- `reschedule` does nothing when there is no URL, and else starts a request for the URL that
`peek` gives. -/
lemma reschedule_ok {load : Url → Load} {o : Option Transfer}
    (hr : reschedule cfg id load h c = .ok (h', c', o)) :
    (exhausted c id = .ok true ∧ h' = h ∧ c' = c ∧ o = none) ∨
      ∃ u url d t, o = some t ∧ c.peek id = (.ok u, c') ∧ u.normalize = .ok url ∧
        url.normalize = .ok d.url ∧ Request h (load url).found d u url h' t := by
  rw [reschedule, bind_eq_ok] at hr
  obtain ⟨stop, hstop, hr⟩ := hr
  rw [Call.run_eq_ok_iff] at hstop
  cases stop with
  | true =>
      obtain ⟨rfl, rfl, rfl⟩ := ok_triple hr
      exact Or.inl ⟨hstop, rfl, rfl, rfl⟩
  | false =>
      simp only [Bool.false_eq_true, if_false, bind_eq_ok] at hr
      obtain ⟨⟨u, c₁⟩, hpeek, url, hurl, ⟨d, found⟩, hload, ⟨h₁, t⟩, hdisp, hr⟩ := hr
      obtain ⟨rfl, rfl, rfl⟩ := ok_triple hr
      obtain ⟨hnorm, rfl⟩ := Doc.loadWith_ok (Call.run_eq_ok_iff.1 hload)
      exact Or.inr ⟨u, url, d, t, rfl, Call.step_eq_ok_iff.1 hpeek, Call.run_eq_ok_iff.1 hurl,
        hnorm, request_of_dispatch hdisp⟩

/-! ### What `done` does -/

lemma url_finish {d' : Doc} (hf : finish d r = .ok d') : d'.url = d.url := by
  simp only [finish, bind_eq_ok] at hf
  obtain ⟨_, -, _, -, _, -, hf⟩ := hf
  rw [← Except.ok.inj hf]

/-- What the switch of `done` does. -/
inductive Settled (cfg : Config) (id : ℕ) (r : Completion) (h : EasyHandle) (d : Doc)
    (s : Shared Q) : EasyHandle → List Event → Shared Q → Prop
  | robots {d' : Doc} : h.state = .robots →
      Settled cfg id r h d s
        { h with
          state := .next, doc := some d'
          robotsEntry := some { entry := newEntry cfg r, host := d.url.host } } [] s
  | accepted {d' : Doc} : h.state = .head →
      Settled cfg id r h d s { h with state := .content, doc := some d' } [] s
  | saved {d' : Doc} {db : Collection} {u : Url} {c : UrlClassifier Q} :
      h.state = .head ∨ h.state = .content → d.url.normalize = .ok d'.url →
      s.classifier.pop id = (.ok u, c) →
      Settled cfg id r h d s { h with state := .next, doc := some d' } [.saved d', .popped u]
        { classifier := c, db := db, ndocsSaved := s.ndocsSaved + 1 }
  | next : h.state = .next →
      Settled cfg id r h d s { h with state := .next, doc := some d } [] s

lemma settled_of_saveAndPop {d₁ : Doc} (hst : h.state = .head ∨ h.state = .content)
    (hurl : d₁.url = d.url) (hs : saveAndPop cfg id h d₁ s = .ok (h', log, s')) :
    Settled cfg id r h d s h' log s' := by
  simp only [saveAndPop, bind_eq_ok] at hs
  obtain ⟨⟨d', db⟩, hsave, ⟨u, c⟩, hpop, hs⟩ := hs
  obtain ⟨rfl, rfl, rfl⟩ := ok_triple hs
  refine .saved hst ?_ (Call.step_eq_ok_iff.1 hpop)
  rw [Call.run_eq_ok_iff, Doc.save, bind_eq_ok] at hsave
  obtain ⟨d₂, hprep, hsave⟩ := hsave
  obtain ⟨rfl, -⟩ := Prod.mk.inj (Except.ok.inj hsave)
  rw [Doc.prepare] at hprep
  split at hprep
  · exact absurd hprep (by simp)
  · rw [bind_eq_ok] at hprep
    obtain ⟨v, hnorm, hprep⟩ := hprep
    rw [← hurl, hnorm, ← Except.ok.inj hprep]

lemma settled_of_settle (hs : settle cfg id r h d s = .ok (h', log, s')) :
    Settled cfg id r h d s h' log s' := by
  cases hst : h.state with
  | idle => simp [settle, hst] at hs
  | robots =>
      simp only [settle, hst] at hs
      obtain ⟨rfl, rfl, rfl⟩ := ok_triple hs
      exact .robots hst
  | head =>
      simp only [settle, hst] at hs
      split at hs
      · split at hs
        · obtain ⟨rfl, rfl, rfl⟩ := ok_triple hs
          exact .accepted hst
        · exact settled_of_saveAndPop (Or.inl hst) (by rfl) hs
      · exact settled_of_saveAndPop (Or.inl hst) (by rfl) hs
  | content =>
      simp only [settle, hst] at hs
      split at hs
      · exact settled_of_saveAndPop (Or.inr hst) (by rfl) hs
      · exact settled_of_saveAndPop (Or.inr hst) (by rfl) hs
  | next =>
      simp only [settle, hst] at hs
      obtain ⟨rfl, rfl, rfl⟩ := ok_triple hs
      exact .next hst

/-- The robots check refuses the URL `u` of the queue. -/
def Refused (entry : Option Fetched) (u : Url) : Prop :=
  ∃ f url, entry = some f ∧ u.normalize = .ok url ∧ passes f url = false

/-- The loop chooses the state for the URL `u` of the queue. -/
def Chosen (entry : Option Fetched) (loads : ℕ → Url → Load) (u : Url) (state : HState) : Prop :=
  ∃ url, u.normalize = .ok url ∧
    ((state = .content ∧ ∃ k, (loads k url).found = true) ∨ state = .robots ∨
      (state = .head ∧ ∃ f, entry = some f ∧ passes f url = true))

lemma verdict_none {entry : Option Fetched} {found : Bool} (hv : verdict entry d url found = none)
    (hu : u.normalize = .ok url) : Refused entry u := by
  unfold verdict at hv
  split at hv
  · exact absurd hv (by simp)
  · split at hv
    · exact absurd hv (by simp)
    · next f =>
        split at hv
        · exact absurd hv (by simp)
        · split at hv
          · exact absurd hv (by simp)
          · next hp => exact ⟨f, url, rfl, hu, by simpa using hp⟩

lemma verdict_some {entry : Option Fetched} {loads : ℕ → Url → Load} {k : ℕ} {state : HState}
    (hv : verdict entry d url (loads k url).found = some state) (hu : u.normalize = .ok url) :
    Chosen entry loads u state := by
  refine ⟨url, hu, ?_⟩
  unfold verdict at hv
  split at hv
  · next hf => exact Or.inl ⟨(Option.some.inj hv).symm, k, hf⟩
  · split at hv
    · exact Or.inr (Or.inl (Option.some.inj hv).symm)
    · next f =>
        split at hv
        · exact Or.inr (Or.inl (Option.some.inj hv).symm)
        · split at hv
          · next hp => exact Or.inr (Or.inr ⟨(Option.some.inj hv).symm, f, rfl, hp⟩)
          · exact absurd hv (by simp)

/-- What the loop of `done` does: the URLs `us` at the front of the queue are refused and popped,
and it stops at the end or at a URL for which it chooses a state. -/
structure NextTo (entry : Option Fetched) (id : ℕ) (loads : ℕ → Url → Load) (c : UrlClassifier Q)
    (state : HState) (us : List Url) (c' : UrlClassifier Q) (rest : List Url) : Prop where
  deque : c.deques id = us ++ rest
  classifier : c' = c.setDeque id rest
  refused : ∀ u ∈ us, Refused entry u
  stop : (state = .idle ∧ rest = []) ∨ ∃ u vs, rest = u :: vs ∧ Chosen entry loads u state

lemma setDeque_self (c : UrlClassifier Q) (n : ℕ) : c.setDeque n (c.deques n) = c := by
  rw [UrlClassifier.setDeque, Function.update_eq_self]

lemma setDeque_setDeque (c : UrlClassifier Q) (n : ℕ) (us vs : List Url) :
    (c.setDeque n us).setDeque n vs = c.setDeque n vs := by
  rw [UrlClassifier.setDeque, UrlClassifier.setDeque, UrlClassifier.setDeque,
    Function.update_idem]

/-- A turn of the loop.  The queue is not empty, so that `peek` changes nothing and `pop` takes what
`peek` has shown. -/
lemma nextLoop_cons {entry : Option Fetched} {loads : ℕ → Url → Load} {us : List Url} (fuel : ℕ)
    (hn : id ∈ c.table.ns) (hd : c.deques id = u :: us) :
    nextLoop entry id loads (fuel + 1) d c = (do
      let url ← Call.url.run u.normalize
      let (d, preexisting) ← Call.load.run (d.loadWith (loads fuel url) url)
      match verdict entry d url preexisting with
      | some state => .ok (state, d, [], c)
      | none => do
          let (state, d, vs, c) ← nextLoop entry id loads fuel d (c.setDeque id us)
          .ok (state, d, u :: vs, c)) := by
  have hpop := UrlClassifier.pop_of_cons hn hd
  simp only [nextLoop, UrlClassifier.emptyAt_of_mem hn, UrlClassifier.peek_of_cons hn hd, hd,
    Call.run_ok, Call.step_ok, ok_bind, List.isEmpty_cons, Bool.false_eq_true, if_false, hpop]

lemma nextLoop_ok {entry : Option Fetched} {loads : ℕ → Url → Load} {fuel : ℕ} {state : HState}
    {d' : Doc} {us : List Url} (hn : id ∈ c.table.ns) (hfuel : (c.deques id).length ≤ fuel)
    (hl : nextLoop entry id loads fuel d c = .ok (state, d', us, c')) :
    ∃ rest, NextTo entry id loads c state us c' rest := by
  have hempty : ∀ {d : Doc} {c : UrlClassifier Q} {us : List Url}, c.deques id = [] →
      (.ok (.idle, d, [], c) : Except Thrown _) = .ok (state, d', us, c') →
      ∃ rest, NextTo entry id loads c state us c' rest := by
    intro d c us hnil h
    obtain ⟨rfl, rfl, rfl, rfl⟩ : HState.idle = state ∧ d = d' ∧ [] = us ∧ c = c' := by
      simpa using h
    refine ⟨[], hnil, ?_, by simp, Or.inl ⟨rfl, rfl⟩⟩
    rw [← hnil, setDeque_self]
  -- on the fuel, which is at least the length of the queue
  induction fuel generalizing c d us with
  | zero => exact hempty (List.length_eq_zero_iff.1 (Nat.le_zero.1 hfuel)) hl
  | succ fuel ih =>
      cases hd : c.deques id with
      | nil =>
          rw [nextLoop, UrlClassifier.emptyAt_of_mem hn, hd] at hl
          exact hempty hd hl
      | cons u vs =>
          rw [hd, List.length_cons] at hfuel
          simp only [nextLoop_cons fuel hn hd, bind_eq_ok] at hl
          obtain ⟨url, hurl, ⟨d₁, found⟩, hload, hl⟩ := hl
          have hnorm : u.normalize = .ok url := Call.run_eq_ok_iff.1 hurl
          obtain ⟨-, rfl⟩ := Doc.loadWith_ok (Call.run_eq_ok_iff.1 hload)
          cases hv : verdict entry d₁ url (loads fuel url).found with
          | some st =>
              simp only [hv] at hl
              obtain ⟨rfl, rfl, rfl, rfl⟩ : st = state ∧ d₁ = d' ∧ [] = us ∧ c = c' := by
                simpa using hl
              refine ⟨u :: vs, hd, ?_, by simp, Or.inr ⟨u, vs, rfl, verdict_some hv hnorm⟩⟩
              rw [← hd, setDeque_self]
          | none =>
              simp only [hv, bind_eq_ok] at hl
              obtain ⟨⟨st, d₂, us₂, c₃⟩, hrec, hl⟩ := hl
              obtain ⟨rfl, rfl, rfl, rfl⟩ : st = state ∧ d₂ = d' ∧ u :: us₂ = us ∧ c₃ = c' := by
                simpa using hl
              have hdeq : (c.setDeque id vs).deques id = vs := by simp
              obtain ⟨rest, hrest⟩ := ih (c := c.setDeque id vs) hn (by rw [hdeq]; omega) hrec
              refine ⟨rest, ?_, ?_, ?_, hrest.stop⟩
              · rw [hd, List.cons_append, ← hrest.deque, hdeq]
              · rw [hrest.classifier, setDeque_setDeque]
              · intro w hw
                rcases List.mem_cons.1 hw with rfl | hw
                · exact verdict_none hv hnorm
                · exact hrest.refused w hw

lemma nextUrl_of_next {us : List Url} {loads : ℕ → Url → Load} (hn : id ∈ c.table.ns)
    (hst : h.state = .next) (hdoc : h.doc = some d)
    (hl : nextUrl id loads h c = .ok (h', us, c')) :
    ∃ state d' rest, h' = { h with state := state, doc := some d' } ∧
      NextTo h.robotsEntry id loads c state us c' rest := by
  simp only [nextUrl, hst, hdoc, bind_eq_ok] at hl
  obtain ⟨⟨state, d', us', c₁⟩, hloop, hl⟩ := hl
  obtain ⟨rfl, rfl, rfl⟩ := ok_triple hl
  obtain ⟨rest, hrest⟩ := nextLoop_ok hn le_rfl hloop
  exact ⟨state, d', rest, rfl, hrest⟩

lemma nextUrl_of_ne_next {us : List Url} {loads : ℕ → Url → Load} (hst : h.state ≠ .next)
    (hl : nextUrl id loads h c = .ok (h', us, c')) : h' = h ∧ us = [] ∧ c' = c := by
  rw [nextUrl] at hl
  split at hl
  · next hst' _ => exact absurd hst' hst
  · obtain ⟨rfl, rfl, rfl⟩ := ok_triple hl
    exact ⟨rfl, rfl, rfl⟩

/-- `done` is its switch, then its loop, then `reschedule`. -/
lemma done_ok {o : Option Transfer} (hd : done cfg id r h s = .ok (h', log, s', o)) :
    ∃ d d₁ h₁ log₁ s₁ h₂ us c₂ c₃, h.doc = some d ∧ d₁.url = d.url ∧
      Settled cfg id r h d₁ s h₁ log₁ s₁ ∧
      nextUrl id r.loads h₁ s₁.classifier = .ok (h₂, us, c₂) ∧
      reschedule cfg id r.load h₂.clearUrl c₂ = .ok (h', c₃, o) ∧
      log = log₁ ++ us.map .popped ∧ s' = { s₁ with classifier := c₃ } := by
  rw [done] at hd
  split at hd
  · exact absurd hd (by simp)
  · next d hdoc =>
      simp only [bind_eq_ok] at hd
      obtain ⟨d₁, hfin, ⟨h₁, log₁, s₁⟩, hset, ⟨h₂, us, c₂⟩, hnext, ⟨h₃, c₃, o₃⟩, hres, hd⟩ := hd
      obtain ⟨rfl, rfl, hlast⟩ := ok_triple hd
      obtain ⟨rfl, rfl⟩ := Prod.mk.inj hlast
      exact ⟨d, d₁, h₁, log₁, s₁, h₂, us, c₂, c₃, hdoc, url_finish (Call.run_eq_ok_iff.1 hfin),
        settled_of_settle hset, hnext, hres, rfl, rfl⟩

/-! ### Which calls can throw -/

lemma exhausted_of_mem (hn : id ∈ c.table.ns) :
    exhausted c id = .ok (c.emptyTop && (c.deques id).isEmpty) := by
  rw [exhausted, UrlClassifier.emptyAt_of_mem hn]
  split
  · next htop => rw [htop, Bool.true_and]
  · next htop => simp [htop]

lemma orderly_dispatch (hst : h.state ≠ .next) : Orderly (h.dispatch d u url) := by
  unfold dispatch
  split
  · exact (Orderly.run (by decide) _).bind fun _ _ => .ok _
  · exact (Orderly.run (by decide) _).bind fun _ _ => .ok _
  · exact .ok _
  · exact .ok _
  · next hnext => exact absurd hnext hst

lemma orderly_reschedule {load : Url → Load} (hn : id ∈ c.table.ns) (hst : h.state ≠ .next) :
    Orderly (reschedule cfg id load h c) := by
  rw [reschedule, exhausted_of_mem hn, Call.run_ok, ok_bind]
  split
  · exact .ok _
  · next hne =>
      -- there is a URL to look at
      obtain ⟨u, c', hpeek⟩ := UrlClassifier.exists_peek hn (by simpa using hne)
      rw [hpeek, Call.step_ok, ok_bind]
      refine (Orderly.run (by decide) _).bind fun url _ => ?_
      refine (Orderly.run (by decide) _).bind fun x _ => ?_
      refine Orderly.bind (orderly_dispatch ?_) fun _ _ => .ok _
      split
      · simp
      · exact hst

/-- The loop pops only what it has just seen. -/
lemma orderly_nextLoop {entry : Option Fetched} {loads : ℕ → Url → Load} (fuel : ℕ)
    (hn : id ∈ c.table.ns) : Orderly (nextLoop entry id loads fuel d c) := by
  induction fuel generalizing c d with
  | zero => exact .ok _
  | succ fuel ih =>
      cases hd : c.deques id with
      | nil =>
          rw [nextLoop, UrlClassifier.emptyAt_of_mem hn, hd]
          exact .ok _
      | cons u us =>
          rw [nextLoop_cons fuel hn hd]
          refine (Orderly.run (by decide) _).bind fun url _ => ?_
          refine (Orderly.run (by decide) _).bind fun x _ => ?_
          dsimp only
          split
          · exact .ok _
          · exact (ih (c := c.setDeque id us) hn).bind fun _ _ => .ok _

lemma orderly_saveAndPop {us : List Url} (hn : id ∈ s.classifier.table.ns)
    (hd : s.classifier.deques id = u :: us) : Orderly (saveAndPop cfg id h d s) := by
  refine (Orderly.run (by decide) _).bind fun _ _ => ?_
  rw [UrlClassifier.pop_of_cons hn hd]
  exact .ok _

lemma orderly_settle (hn : id ∈ s.classifier.table.ns) (hst : h.state ≠ .idle)
    (hq : s.classifier.deques id ≠ []) : Orderly (settle cfg id r h d s) := by
  have hsave : ∀ d, Orderly (saveAndPop cfg id h d s) := by
    intro d
    obtain ⟨u, us, hd⟩ := List.exists_cons_of_ne_nil hq
    exact orderly_saveAndPop hn hd
  unfold settle
  split
  · next hidle => exact absurd hidle hst
  · exact .ok _
  · split
    · dsimp only
      split
      · exact .ok _
      · exact hsave _
    · exact hsave _
  · split
    · exact hsave _
    · exact hsave _
  · exact .ok _

lemma Settled.table (hs : Settled cfg id r h d s h' log s') :
    s'.classifier.table = s.classifier.table := by
  cases hs with
  | robots => rfl
  | accepted => rfl
  | next => rfl
  | saved _ _ hpop =>
      have htake := UrlClassifier.step_pop s.classifier id
      rw [hpop] at htake
      cases htake with
      | take => rfl

lemma Settled.exists_doc (hs : Settled cfg id r h d s h' log s') : ∃ d', h'.doc = some d' := by
  cases hs <;> exact ⟨_, rfl⟩

/-- The loop stops with a state of a request or idle, and idle only at the end of the queue. -/
lemma NextTo.state {entry : Option Fetched} {loads : ℕ → Url → Load} {state : HState}
    {us rest : List Url} (hto : NextTo entry id loads c state us c' rest) :
    state ≠ .next ∧ (state ≠ .idle → rest ≠ []) := by
  rcases hto.stop with ⟨rfl, -⟩ | ⟨u, vs, rfl, url, -, ⟨rfl, -⟩ | rfl | ⟨rfl, -⟩⟩ <;> simp

/-- The state NEXT does not outlive the loop of `done`. -/
lemma state_nextUrl {us : List Url} {loads : ℕ → Url → Load} (hn : id ∈ c.table.ns)
    (hdoc : h.doc = some d) (hl : nextUrl id loads h c = .ok (h', us, c')) :
    h'.state ≠ .next ∧ c'.table = c.table := by
  by_cases hst : h.state = .next
  · obtain ⟨state, d', rest, rfl, hto⟩ := nextUrl_of_next hn hst hdoc hl
    exact ⟨hto.state.1, by rw [hto.classifier]; rfl⟩
  · obtain ⟨rfl, -, rfl⟩ := nextUrl_of_ne_next hst hl
    exact ⟨hst, rfl⟩

/-- `done` on a handle with a document that is not idle and whose queue holds the URL of the
request. -/
lemma orderly_done (hn : id ∈ s.classifier.table.ns) (hdoc : h.doc = some d) (hst : h.state ≠ .idle)
    (hq : s.classifier.deques id ≠ []) : Orderly (done cfg id r h s) := by
  unfold done
  rw [hdoc]
  refine (Orderly.run (by decide) _).bind fun d₁ _ => ?_
  refine (orderly_settle hn hst hq).bind fun x hx => ?_
  obtain ⟨h₁, log₁, s₁⟩ := x
  have hset := settled_of_settle hx
  obtain ⟨d₂, hdoc₁⟩ := hset.exists_doc
  have hn₁ : id ∈ s₁.classifier.table.ns := by
    rw [hset.table]
    exact hn
  refine Orderly.bind ?_ fun x hx => ?_
  · unfold nextUrl
    split
    · exact (orderly_nextLoop _ hn₁).bind fun _ _ => .ok _
    · exact .ok _
  · obtain ⟨h₂, us, c₂⟩ := x
    obtain ⟨hst₂, htable⟩ := state_nextUrl hn₁ hdoc₁ hx
    have hn₂ : id ∈ c₂.table.ns := by
      rw [htable]
      exact hn₁
    exact (orderly_reschedule (h := h₂.clearUrl) hn₂ hst₂).bind fun _ _ => .ok _

end EasyHandle

end Mycelium
