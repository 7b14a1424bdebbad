import Mycelium.Common.UrlNormalize
import Mycelium.Crawler.HostQueues
import Mycelium.Lib.Lines

/-!
# The input of the crawler

A connection sends URLs, one on a line.  `process_input_buff` cuts what has arrived into lines and
pushes their URLs; how the bytes were cut into reads makes no difference.  A fresh classifier gives
the first hosts a child queue each and parks the others in `top_q`.  It tells hosts by their text,
so that two spellings of a host can be queued in two places.  Only `http` URLs are let in, except at
the end of the input, where the line that is left over is pushed whatever its scheme.
-/

namespace Mycelium

open Lib

/-! ### The buffer -/

/-- `GlobalInfo::Connection`, with the classifier of its crawler. -/
structure Connection (Q : PriorityQueue hostKey) where
  inputBuff : Str := []
  numUrls : ℕ := 0
  classifier : UrlClassifier Q

namespace Connection

variable {Q : PriorityQueue hostKey}

/-- The connection to a fresh crawler. -/
def new (Q : PriorityQueue hostKey) (N : ℕ) : Connection Q where
  classifier := UrlClassifier.new Q N

/-- The body of the loop of `process_input_buff`; `line` is the text between the two positions. -/
def readLine (k : Connection Q) (line : Str) : Except Exn (Connection Q) :=
  -- `hare > tortoise+1`, which also skips a line of one character
  if line.length > 1 then
    match Url.assign line with
    | .ok url =>
        if url.absolute && url.scheme == lit "http" then
          .ok { k with numUrls := k.numUrls + 1, classifier := k.classifier.push url }
        else .ok k
    | .error (.urlParseError _) => .ok k
    | .error e => .error e
  else .ok k

/-- The loop of `process_input_buff`, with the text that is left over; `line` is the text from
`tortoise` on. -/
def processLoop (k : Connection Q) (line : Str) : Str → Except Exn (Str × Connection Q)
  | [] => .ok (line, k)
  | c :: s =>
      if isSeparator c then do
        let k ← k.readLine line
        processLoop k [] s
      else processLoop k (line ++ [c]) s

/-- The line that is flushed at the end of the input; every scheme is taken. -/
def flushLine (k : Connection Q) (line : Str) : Except Exn (Connection Q) :=
  match Url.assign line with
  | .ok url => .ok { k with classifier := k.classifier.push url }
  | .error (.urlParseError _) => .ok k
  | .error e => .error e

/-- `GlobalInfo::Connection::process_input_buff`. -/
def processInputBuff (flush : Bool) (k : Connection Q) : Except Exn (Connection Q) :=
  if k.inputBuff.isEmpty then .ok k
  else do
    let (rest, k) ← k.processLoop [] k.inputBuff
    if flush && !rest.isEmpty then do
      let k ← k.flushLine rest
      .ok { k with inputBuff := [] }
    else .ok { k with inputBuff := rest }

/-- `connection_read_cb` after a read of some bytes. -/
def read (k : Connection Q) (b : Str) : Except Exn (Connection Q) :=
  processInputBuff false { k with inputBuff := k.inputBuff ++ b }

/-- A byte stream that arrives in some reads, and perhaps ends. -/
def feed (k : Connection Q) (reads : List Str) (eof : Bool) : Except Exn (Connection Q) := do
  let k ← reads.foldlM read k
  if eof then k.processInputBuff true else .ok k

end Connection

/-! ### The exceptions of the parser -/

namespace Url

/-- Every exception is a `UrlParseError`. -/
def ParseErrors {α : Type} (x : Except Exn α) : Prop :=
  ∀ e, x = .error e → ∃ w, e = .urlParseError w

namespace ParseErrors

variable {α β : Type}

lemma ok (a : α) : ParseErrors (.ok a) := fun _ h => absurd h (by simp)

lemma error (w : Str) : ParseErrors (.error (.urlParseError w) : Except Exn α) :=
  fun _ h => ⟨w, (Except.error.inj h).symm⟩

lemma bind {x : Except Exn α} {f : α → Except Exn β} (hx : ParseErrors x)
    (hf : ∀ a, ParseErrors (f a)) : ParseErrors (x >>= f) := by
  cases x with
  | ok a => exact hf a
  | error e => exact fun e' he => hx e' (congrArg Except.error (Except.error.inj he))

lemma ite {p : Prop} [Decidable p] {x y : Except Exn α} (hx : ParseErrors x) (hy : ParseErrors y) :
    ParseErrors (if p then x else y) := by
  split
  · exact hx
  · exact hy

end ParseErrors

variable (u : Url) (s : Str)

lemma parseErrors_setScheme : ParseErrors (u.setScheme s) := .ite (.ok _) (.error _)

lemma parseErrors_setHost : ParseErrors (u.setHost s) := .ite (.ok _) (.error _)

lemma parseErrors_setPort : ParseErrors (u.setPort s) :=
  .ite (.ok _) (.ite (.error _) (.ite (.error _) (.ok _)))

lemma parseErrors_setHostPort (h : Str) : ParseErrors (u.setHostPort s h) := by
  unfold setHostPort
  split
  · refine .ite (.ite (.error _) (.ite (parseErrors_setHost _ _) (.error _))) ?_
    split
    · exact parseErrors_setHost _ _
    · exact .ite (.error _)
        ((parseErrors_setHost _ _).bind fun _ => .ite (.error _) (parseErrors_setPort _ _))
  · exact parseErrors_setHost _ _

lemma parseErrors_setAuthority : ParseErrors (u.setAuthority s) := by
  unfold setAuthority
  split
  · exact parseErrors_setHostPort _ _ _
  · exact .ite (.error _) (parseErrors_setHostPort _ _ _)

/-- `assign` throws nothing that `process_input_buff` does not catch. -/
lemma parseErrors_assign : ParseErrors (assign s) := by
  unfold assign assignMatch
  refine ParseErrors.bind ?_ fun u => .ite (.error _) (ParseErrors.bind ?_ fun v => ?_)
  · cases (regexMatch s).scheme with
    | none => exact .ok _
    | some x => exact parseErrors_setScheme _ _
  · cases (regexMatch s).authority with
    | none => exact .ok _
    | some a => exact parseErrors_setAuthority _ _
  · exact .ite (.error _) (.ite (.error _) (.ok _))

end Url

/-! ### The URLs of a stream -/

namespace Connection

variable {Q : PriorityQueue hostKey}

/-- The URL that is pushed for a line. -/
def lineUrl (line : Str) : Option Url :=
  if line.length > 1 then (Url.assign line).toOption.filter fun u =>
    u.absolute && u.scheme == lit "http"
  else none

/-- The URLs of the lines of a text that goes on the text `line`, and the text that is left over. -/
def urlsFrom (line : Str) : Str → List Url × Str
  | [] => ([], line)
  | c :: s =>
      if isSeparator c then ((lineUrl line).toList ++ (urlsFrom [] s).1, (urlsFrom [] s).2)
      else urlsFrom (line ++ [c]) s

/-- The URLs that a byte stream brings in. -/
def streamUrls (s : Str) (eof : Bool) : List Url :=
  (urlsFrom [] s).1 ++
    if eof && !(urlsFrom [] s).2.isEmpty then (Url.assign (urlsFrom [] s).2).toOption.toList else []

/-- Pushes URLs in turn. -/
def pushAll (c : UrlClassifier Q) (us : List Url) : UrlClassifier Q := us.foldl UrlClassifier.push c

lemma pushAll_append (c : UrlClassifier Q) (us vs : List Url) :
    pushAll c (us ++ vs) = pushAll (pushAll c us) vs := List.foldl_append

lemma readLine_eq (k : Connection Q) (line : Str) :
    ∃ n, k.readLine line = .ok { k with
      numUrls := n, classifier := pushAll k.classifier (lineUrl line).toList } := by
  unfold readLine lineUrl
  split
  · cases ha : Url.assign line with
    | ok url =>
        by_cases hhttp : (url.absolute && url.scheme == lit "http") = true
        · refine ⟨k.numUrls + 1, ?_⟩
          simp only [hhttp, if_true, Except.toOption, Option.filter_some]
          rfl
        · refine ⟨k.numUrls, ?_⟩
          simp only [hhttp, Except.toOption, Option.filter_some]
          rfl
    | error e =>
        obtain ⟨w, rfl⟩ := Url.parseErrors_assign line e ha
        exact ⟨k.numUrls, rfl⟩
  · exact ⟨k.numUrls, rfl⟩

lemma processLoop_eq (k : Connection Q) (line s : Str) :
    ∃ n, k.processLoop line s = .ok ((urlsFrom line s).2, { k with
      numUrls := n, classifier := pushAll k.classifier (urlsFrom line s).1 }) := by
  induction s generalizing k line with
  | nil => exact ⟨k.numUrls, rfl⟩
  | cons c s ih =>
      rw [processLoop, urlsFrom]
      split
      · obtain ⟨n, hn⟩ := readLine_eq k line
        rw [hn]
        obtain ⟨m, hm⟩ := ih { k with
          numUrls := n, classifier := pushAll k.classifier (lineUrl line).toList } []
        exact ⟨m, by rw [pushAll_append]; exact hm⟩
      · exact ih k (line ++ [c])

/-- The URLs of the lines of a text. -/
lemma urlsFrom_eq {line : Str} (hl : ∀ c ∈ line, isSeparator c = false) (s : Str) :
    urlsFrom line s = ((lines isSeparator (line ++ s)).flatMap fun l => (lineUrl l).toList,
      leftover isSeparator (line ++ s)) := by
  induction s generalizing line with
  | nil =>
      rw [List.append_nil, lines_of_forall hl, leftover_of_forall hl]
      rfl
  | cons c s ih =>
      rw [urlsFrom]
      split
      · next hc =>
          rw [ih (by simp), lines_append_cons hl hc, leftover_append_cons line s hc]
          rfl
      · next hc =>
          rw [ih, List.append_assoc, List.singleton_append]
          exact not_separator_concat hl (by simpa using hc)

lemma urlsFrom_nil (s : Str) :
    urlsFrom [] s = ((lines isSeparator s).flatMap fun l => (lineUrl l).toList,
      leftover isSeparator s) :=
  urlsFrom_eq (by simp) s

/-- The text that is left over is read again with what comes next. -/
lemma urlsFrom_append (s t : Str) :
    urlsFrom [] (s ++ t) = ((urlsFrom [] s).1 ++ (urlsFrom [] ((urlsFrom [] s).2 ++ t)).1,
      (urlsFrom [] ((urlsFrom [] s).2 ++ t)).2) := by
  simp only [urlsFrom_nil]
  rw [lines_append, leftover_append, List.flatMap_append]

/-- What a connection has made of the text that it has read. -/
structure HasRead (k : Connection Q) (c : UrlClassifier Q) (s : Str) : Prop where
  buff : k.inputBuff = (urlsFrom [] s).2
  classifier : k.classifier = pushAll c (urlsFrom [] s).1

lemma HasRead.read {k : Connection Q} {c : UrlClassifier Q} {s : Str} (h : k.HasRead c s)
    (b : Str) :
    ∃ k', k.read b = .ok k' ∧ k'.HasRead c (s ++ b) := by
  have happ := urlsFrom_append s b
  rw [Connection.read, processInputBuff]
  split
  · next hnil =>
      -- nothing was left over and nothing came
      rw [List.isEmpty_iff, List.append_eq_nil_iff] at hnil
      obtain ⟨hbuff, rfl⟩ := hnil
      exact ⟨_, rfl, by simpa using h.buff, by simpa using h.classifier⟩
  · obtain ⟨n, hn⟩ := processLoop_eq { k with inputBuff := k.inputBuff ++ b } [] (k.inputBuff ++ b)
    rw [hn]
    refine ⟨_, rfl, ?_, ?_⟩
    · rw [h.buff, happ]
    · rw [happ, pushAll_append, ← h.classifier, h.buff]

lemma HasRead.reads {k : Connection Q} {c : UrlClassifier Q} {s : Str} (h : k.HasRead c s)
    (bs : List Str) :
    ∃ k', bs.foldlM Connection.read k = .ok k' ∧ k'.HasRead c (s ++ bs.flatten) := by
  induction bs generalizing k s with
  | nil => exact ⟨k, rfl, by simpa using h⟩
  | cons b bs ih =>
      obtain ⟨k₁, hk₁, h₁⟩ := h.read b
      obtain ⟨k₂, hk₂, h₂⟩ := ih h₁
      refine ⟨k₂, ?_, ?_⟩
      · rw [List.foldlM_cons, hk₁]
        exact hk₂
      · rwa [List.flatten_cons, ← List.append_assoc]

lemma HasRead.flush {k : Connection Q} {c : UrlClassifier Q} {s : Str} (h : k.HasRead c s) :
    ∃ k', k.processInputBuff true = .ok k' ∧ k'.classifier = pushAll c (streamUrls s true) := by
  have hrest : urlsFrom [] k.inputBuff = ([], k.inputBuff) := by
    have hfree := not_separator_leftover isSeparator s
    rw [h.buff, urlsFrom_nil s, urlsFrom_nil, lines_of_forall hfree, leftover_of_forall hfree]
    rfl
  rw [processInputBuff, streamUrls, ← h.buff, pushAll_append, ← h.classifier]
  cases hb : k.inputBuff.isEmpty with
  | true => exact ⟨k, rfl, by simp [pushAll]⟩
  | false =>
      obtain ⟨n, hn⟩ := processLoop_eq k [] k.inputBuff
      rw [hrest] at hn
      simp only [Bool.false_eq_true, if_false, hn, ok_bind, hb, Bool.not_false, Bool.and_self,
        if_true, flushLine]
      cases ha : Url.assign k.inputBuff with
      | ok url => exact ⟨_, rfl, rfl⟩
      | error e =>
          obtain ⟨w, rfl⟩ := Url.parseErrors_assign k.inputBuff e ha
          exact ⟨_, rfl, rfl⟩

/-- The reads push these URLs in turn, whatever the classifier holds. -/
def Pushes (reads : List Str) (eof : Bool) (us : List Url) : Prop :=
  ∀ (Q : PriorityQueue hostKey) (c : UrlClassifier Q),
    ∃ k, feed { classifier := c } reads eof = .ok k ∧ k.classifier = pushAll c us

/-- However a stream arrives in reads, its URLs are pushed in turn. -/
theorem pushes_streamUrls (reads : List Str) (eof : Bool) :
    Pushes reads eof (streamUrls reads.flatten eof) := by
  intro Q c
  obtain ⟨k, hk, hread⟩ := HasRead.reads (k := { classifier := c }) (c := c) (s := [])
    ⟨rfl, rfl⟩ reads
  rw [feed, hk]
  cases eof with
  | true => exact hread.flush
  | false => exact ⟨k, rfl, by simpa [streamUrls] using hread.classifier⟩

/-- The case of a fresh crawler. -/
lemma feed_eq (N : ℕ) (reads : List Str) (eof : Bool) :
    ∃ k, (new Q N).feed reads eof = .ok k ∧
      k.classifier = pushAll (UrlClassifier.new Q N) (streamUrls reads.flatten eof) :=
  pushes_streamUrls reads eof Q (UrlClassifier.new Q N)

/-! ### The callback -/

/-- `connection_read_cb` after a `read` that has given the bytes `b`.  No bytes are the end of the
input: the buffer is flushed, and the callback is not called again. -/
def readCb (k : Connection Q) (b : Str) : Except Exn (Connection Q) :=
  if b.isEmpty then k.processInputBuff true else k.read b

/-- The calls of the callback push these URLs in turn, whatever the classifier holds. -/
def Delivers (bs : List Str) (us : List Url) : Prop :=
  ∀ (Q : PriorityQueue hostKey) (c : UrlClassifier Q),
    ∃ k, bs.foldlM readCb { classifier := c } = .ok k ∧ k.classifier = pushAll c us

lemma foldlM_readCb (k : Connection Q) {reads : List Str} (hne : ∀ b ∈ reads, b ≠ []) :
    (reads ++ [[]]).foldlM readCb k = k.feed reads true := by
  induction reads generalizing k with
  | nil =>
      have hflush : k.readCb [] = k.processInputBuff true := rfl
      rw [List.nil_append, List.foldlM_cons, hflush]
      exact bind_pure _
  | cons b reads ih =>
      obtain ⟨hb, hreads⟩ := List.forall_mem_cons.1 hne
      have hread : k.readCb b = k.read b := by rw [readCb, if_neg (by simpa using hb)]
      rw [List.cons_append, List.foldlM_cons, hread, feed, List.foldlM_cons, bind_assoc]
      exact congrArg _ (funext fun k => ih k hreads)

/-- A classifier without child queues puts all URLs into `top_q`. -/
lemma topQ_pushAll {c : UrlClassifier Q} (h : c.table.seq = []) (us : List Url) :
    (pushAll c us).topQ = us.foldl Q.push c.topQ := by
  induction us generalizing c with
  | nil => rfl
  | cons u us ih =>
      have hfind : c.table.findHost u.host = none :=
        Table.findHost_eq_none_iff.2 fun e he => absurd he (by simp [h])
      have hpush : c.push u = { c with topQ := Q.push c.topQ u } := by
        rw [UrlClassifier.push, hfind, h]
        rfl
      have hrest := ih (c := c.push u) (by rw [hpush]; exact h)
      rw [hpush] at hrest
      rw [pushAll, List.foldl_cons, hpush]
      exact hrest

/-- The URLs are determined: a `top_q` on lists records them. -/
lemma Delivers.unique {bs : List Str} {us vs : List Url} (hus : Delivers bs us)
    (hvs : Delivers bs vs) : us = vs := by
  have hrecord : ∀ ws : List Url,
      ws.foldl (PriorityQueue.ofList hostKey).push [] = ws.reverse := fun ws => by
    rw [← List.append_nil ws.reverse]
    exact List.foldl_flip_cons_eq_append'
  obtain ⟨k, hk, hku⟩ := hus (PriorityQueue.ofList hostKey) (UrlClassifier.new _ 0)
  obtain ⟨k', hk', hkv⟩ := hvs (PriorityQueue.ofList hostKey) (UrlClassifier.new _ 0)
  obtain rfl : k = k' := Except.ok.inj (hk.symm.trans hk')
  have htop := congrArg UrlClassifier.topQ (hku.symm.trans hkv)
  rw [topQ_pushAll rfl, topQ_pushAll rfl] at htop
  exact List.reverse_injective ((hrecord us).symm.trans (htop.trans (hrecord vs)))

/-- Two ways of cutting a stream into reads push the same sequence of URLs. -/
theorem delivers_of_flatten_eq {reads reads' : List Str} (hne : ∀ b ∈ reads, b ≠ [])
    (hne' : ∀ b ∈ reads', b ≠ []) (h : reads.flatten = reads'.flatten) :
    ∃ us, ∀ vs, (Delivers (reads ++ [[]]) vs ↔ vs = us) ∧
      (Delivers (reads' ++ [[]]) vs ↔ vs = us) := by
  have hstream : ∀ {rs : List Str}, (∀ b ∈ rs, b ≠ []) →
      Delivers (rs ++ [[]]) (streamUrls rs.flatten true) := by
    intro rs hrs Q c
    rw [foldlM_readCb _ hrs]
    exact pushes_streamUrls rs true Q c
  have hus := hstream hne
  have hus' := hstream hne'
  rw [← h] at hus'
  refine ⟨streamUrls reads.flatten true, fun vs => ⟨⟨fun hvs => hvs.unique hus, ?_⟩,
    ⟨fun hvs => hvs.unique hus', ?_⟩⟩⟩
  · rintro rfl
    exact hus
  · rintro rfl
    exact hus'

/-- The cut inside a URL, between the two characters of a line end, and next to a line of one
character. -/
theorem delivers_of_flatten_eq_cuts :
    ∃ us, ∀ vs,
      (Delivers ([lit "http://a/\r", lit "\nx", lit "\nhttp:", lit "//b/"] ++ [[]]) vs ↔ vs = us) ∧
      (Delivers ([lit "http://a/\r\nx\nhttp://b/"] ++ [[]]) vs ↔ vs = us) :=
  delivers_of_flatten_eq (by decide) (by decide) (by decide)

/-! ### The schemes that come in -/

/-- The test of the loop; the flush at the end of the input does without it. -/
def isHttp (u : Url) : Bool := u.absolute && u.scheme == lit "http"

/-- The last line of a stream that does not end in a separator. -/
def lastLine (s : Str) : Str := s.rtakeWhile (!isSeparator ·)

lemma urlsFrom_snd (s : Str) : (urlsFrom [] s).2 = lastLine s := by
  rw [urlsFrom_nil]
  rfl

lemma lineUrl_eq {line : Str} (h : 1 < line.length) :
    lineUrl line = (Url.assign line).toOption.filter isHttp := if_pos h

lemma isHttp_of_lineUrl {line : Str} {u : Url} (h : lineUrl line = some u) : isHttp u = true := by
  rw [lineUrl] at h
  split_ifs at h
  exact (Option.filter_eq_some_iff.1 h).2

lemma isHttp_of_mem_urlsFrom {s : Str} {u : Url} (h : u ∈ (urlsFrom [] s).1) :
    isHttp u = true := by
  rw [urlsFrom_nil] at h
  obtain ⟨line, -, hu⟩ := List.mem_flatMap.1 h
  exact isHttp_of_lineUrl (Option.mem_toList.1 hu)

/-- The URLs of a stream, by its last line. -/
lemma streamUrls_eq (s : Str) : streamUrls s true = (urlsFrom [] s).1 ++
    if (lastLine s).isEmpty then [] else (Url.assign (lastLine s)).toOption.toList := by
  rw [streamUrls, urlsFrom_snd]
  cases (lastLine s).isEmpty <;> rfl

lemma streamUrls_newline (s : Str) :
    streamUrls (s ++ lit "\n") true = (urlsFrom [] s).1 ++ (lineUrl (lastLine s)).toList := by
  have hfree : ∀ c ∈ lastLine s, isSeparator c = false := not_separator_leftover isSeparator s
  have hlast : urlsFrom [] (lastLine s ++ lit "\n")
      = ((lineUrl (lastLine s)).toList ++ [], []) := by
    have hsep : lit "\n" = [0x0A] := rfl
    rw [urlsFrom_nil, hsep, lines_append_cons hfree (by decide),
      leftover_append_cons _ _ (by decide)]
    rfl
  rw [streamUrls, urlsFrom_append, urlsFrom_snd, hlast]
  simp

/-- The URLs that a stream pushes are absolute with the scheme `http`, and a last line without a
separator is read as one with it, exactly when that line, if it is parsed, has the scheme `http`. -/
theorem pushes_http_iff {reads reads' : List Str}
    (h : reads'.flatten = reads.flatten ++ lit "\n") :
    ∃ us us', Pushes reads true us ∧ Pushes reads' true us' ∧
      (((∀ u ∈ us, u.absolute = true ∧ u.scheme = lit "http") ∧
          (2 ≤ (lastLine reads.flatten).length → us = us')) ↔
        ∀ u, Url.assign (lastLine reads.flatten) = .ok u → lastLine reads.flatten ≠ [] →
          u.absolute = true ∧ u.scheme = lit "http") := by
  refine ⟨_, _, pushes_streamUrls reads true, pushes_streamUrls reads' true, ?_⟩
  have hhttp : ∀ u, isHttp u = true ↔ u.absolute = true ∧ u.scheme = lit "http" := by
    simp [isHttp]
  simp only [h, streamUrls_newline, ← hhttp]
  rw [streamUrls_eq]
  generalize hs : reads.flatten = s
  constructor
  · rintro ⟨hall, -⟩ u hu hne
    refine hall u (List.mem_append.2 (Or.inr ?_))
    rw [if_neg (by simpa using hne), hu]
    exact List.mem_singleton.2 rfl
  · intro hlast
    constructor
    · intro u hu
      rcases List.mem_append.1 hu with hu | hu
      · exact isHttp_of_mem_urlsFrom hu
      · split_ifs at hu with hnil
        · exact absurd hu (by simp)
        · cases ha : Url.assign (lastLine s) with
          | error e =>
              rw [ha] at hu
              exact absurd hu (by simp [Except.toOption])
          | ok v =>
              rw [ha] at hu
              obtain rfl := List.mem_singleton.1 hu
              exact hlast u ha (by simpa using hnil)
    · intro hlen
      have hne : lastLine s ≠ [] := by
        rintro hnil
        rw [hnil] at hlen
        exact absurd hlen (by simp)
      rw [if_neg (by simpa using hne), lineUrl_eq hlen]
      cases ha : Url.assign (lastLine s) with
      | error e => rfl
      | ok u => rw [Except.toOption, Option.filter_some, if_pos (hlast u ha hne)]

/-- A stream in two reads whose last line is an `http` URL. -/
theorem pushes_http_iff_sample :
    ∃ us us', Pushes [lit "http://a/\nht", lit "tp://b/"] true us ∧
      Pushes [lit "http://a/\nhttp://b/\n"] true us' ∧
      (∀ u ∈ us, u.absolute = true ∧ u.scheme = lit "http") ∧ us = us' := by
  have happ : List.flatten [lit "http://a/\nhttp://b/\n"]
      = List.flatten [lit "http://a/\nht", lit "tp://b/"] ++ lit "\n" := by decide
  obtain ⟨us, us', hus, hus', hiff⟩ := pushes_http_iff happ
  have hlast : lastLine [lit "http://a/\nht", lit "tp://b/"].flatten = lit "http://b/" := by decide
  rw [hlast] at hiff
  obtain ⟨hall, heq⟩ := hiff.2 fun u hu _ => by
    obtain rfl := Except.ok.inj hu
    decide
  exact ⟨us, us', hus, hus', hall, heq (by decide)⟩

/-- The flush at the end of the input takes an `ftp` URL. -/
theorem not_pushes_http_ftp :
    ∃ us us', Pushes [lit "ftp://a/"] true us ∧ Pushes [lit "ftp://a/\n"] true us' ∧
      ¬ (∀ u ∈ us, u.absolute = true ∧ u.scheme = lit "http") ∧ us ≠ us' := by
  refine ⟨_, _, pushes_streamUrls _ true, pushes_streamUrls _ true, ?_, ?_⟩
  · decide
  · decide

end Connection

/-! ### A fresh classifier -/

namespace UrlClassifier

variable {Q : PriorityQueue hostKey} {c : UrlClassifier Q}

/-- The hosts of the child queues that hold something. -/
def busyHosts (seq : List TableElmt) (d : ℕ → List Url) : Multiset Str :=
  ((seq.filter fun e => !(d e.n).isEmpty).map TableElmt.host : List Str)

/-- The first hosts of a list of URLs, each of them once. -/
def firstHosts (N : ℕ) (us : List Url) : List Str := (us.map Url.host).eraseDups.take N

lemma busyHosts_cons (e : TableElmt) (l : List TableElmt) (d : ℕ → List Url) :
    busyHosts (e :: l) d = (if d e.n = [] then 0 else {e.host}) + busyHosts l d := by
  by_cases h : d e.n = []
  · simp [busyHosts, h]
  · simp [busyHosts, h]

lemma mem_busyHosts {l : List TableElmt} {d : ℕ → List Url} {h : Str} :
    h ∈ busyHosts l d ↔ ∃ e ∈ l, d e.n ≠ [] ∧ e.host = h := by
  simp [busyHosts, and_assoc]

lemma card_busyHosts_le (l : List TableElmt) (d : ℕ → List Url) :
    (busyHosts l d).card ≤ l.length := by
  simpa [busyHosts] using List.length_filter_le (fun e : TableElmt => !(d e.n).isEmpty) l

lemma card_busyHosts_eq_iff (l : List TableElmt) (d : ℕ → List Url) :
    (busyHosts l d).card = l.length ↔ ∀ e ∈ l, d e.n ≠ [] := by
  simp [busyHosts, List.length_filter_eq_length_iff]

lemma busyHosts_congr {l : List TableElmt} {d d' : ℕ → List Url}
    (h : ∀ e ∈ l, d' e.n = [] ↔ d e.n = []) : busyHosts l d' = busyHosts l d := by
  have hf : l.filter (fun e => !(d' e.n).isEmpty) = l.filter fun e => !(d e.n).isEmpty := by
    refine List.filter_congr fun e he => ?_
    rw [Bool.eq_iff_iff]
    simp [h e he]
  rw [busyHosts, hf, busyHosts]

/-- An empty queue is given to a host. -/
lemma busyHosts_overwrite {l : List TableElmt} {d : ℕ → List Url} {n : ℕ} {us : List Url}
    (h : Str) (hnodup : (l.map TableElmt.n).Nodup) (hn : n ∈ l.map TableElmt.n) (hd : d n = [])
    (hus : us ≠ []) :
    busyHosts (l.map (Table.overwrite { host := h, n := n })) (Function.update d n us)
      = {h} + busyHosts l d := by
  induction l with
  | nil => exact absurd hn (by simp)
  | cons a l ih =>
      rw [List.map_cons, List.nodup_cons] at hnodup
      rw [List.map_cons, busyHosts_cons, busyHosts_cons, Table.overwrite_n]
      by_cases ha : a.n = n
      · -- the other elements have other numbers
        have hrest : n ∉ l.map TableElmt.n := ha ▸ hnodup.1
        have hcongr : ∀ e ∈ l, Function.update d n us e.n = [] ↔ d e.n = [] := by
          intro e he
          rw [Function.update_of_ne]
          exact fun hen => hrest (hen ▸ List.mem_map_of_mem he)
        rw [Table.map_overwrite_of_notMem hrest, busyHosts_congr hcongr, ha, Function.update_self,
          if_neg hus, if_pos hd, zero_add, Table.overwrite, if_pos ha]
      · have hn' : n ∈ l.map TableElmt.n := (List.mem_cons.1 hn).resolve_left (Ne.symm ha)
        rw [ih hnodup.2 hn', Function.update_of_ne ha, Table.overwrite, if_neg ha, add_left_comm]

lemma mem_held {d : ℕ → List Url} {ns : List ℕ} {u : Url} :
    u ∈ held d ns ↔ ∃ n ∈ ns, u ∈ d n := by
  induction ns with
  | nil => simp [held]
  | cons n ns ih => simp [held_cons, ih]

lemma firstHosts_concat (N : ℕ) (us : List Url) (u : Url) :
    firstHosts N (us ++ [u]) =
      if u.host ∈ us.map Url.host ∨ N ≤ (firstHosts N us).length then firstHosts N us
      else firstHosts N us ++ [u.host] := by
  rw [firstHosts, firstHosts, List.map_append, List.eraseDups_append, List.length_take]
  have hone : [u].map Url.host = [u.host] := rfl
  by_cases hu : u.host ∈ us.map Url.host
  · have hold : [u.host].removeAll (us.map Url.host) = [] := by
      simpa [List.removeAll] using hu
    rw [if_pos (Or.inl hu), hone, hold, List.eraseDups_nil, List.append_nil]
  · have hnew : [u.host].removeAll (us.map Url.host) = [u.host] := by
      simpa [List.removeAll] using hu
    have hsingle : [u.host].eraseDups = [u.host] := by simp [List.eraseDups_cons]
    rw [hone, hnew, hsingle]
    by_cases hN : N ≤ (us.map Url.host).eraseDups.length
    · rw [if_pos (Or.inr (by omega)), List.take_append_of_le_length hN]
    · have hlen : (us.map Url.host).eraseDups.length + 1 ≤ N := by omega
      rw [if_neg (by rw [not_or]; exact ⟨hu, by omega⟩),
        List.take_of_length_le (by simpa using hlen), List.take_of_length_le (by omega)]

/-- What holds of a fresh classifier into which the URLs `us` have been pushed. -/
structure Filled (N : ℕ) (us : List Url) (c : UrlClassifier Q) : Prop where
  grouped : c.Grouped
  length : c.table.seq.length = N
  contents : c.contents = (us : Multiset Url)
  full : ∀ v ∈ Q.elems c.topQ, ∀ n ∈ c.table.ns, c.deques n ≠ []
  busy : busyHosts c.table.seq c.deques = (firstHosts N us : Multiset Str)

namespace Filled

variable {N : ℕ} {us : List Url}

lemma mem_place (h : Filled N us c) {u : Url} (hu : u ∈ us) :
    u ∈ Q.elems c.topQ ∨ ∃ e ∈ c.table.seq, u ∈ c.deques e.n := by
  have hmem : u ∈ c.contents := by
    rw [h.contents]
    exact hu
  rcases Multiset.mem_add.1 hmem with htop | hheld
  · exact Or.inl htop
  · obtain ⟨n, hn, hu⟩ := mem_held.1 hheld
    obtain ⟨e, he, rfl⟩ := List.mem_map.1 hn
    exact Or.inr ⟨e, he, hu⟩

lemma mem_of_place (h : Filled N us c) {u : Url}
    (hu : u ∈ Q.elems c.topQ ∨ ∃ e ∈ c.table.seq, u ∈ c.deques e.n) : u ∈ us := by
  have hmem : u ∈ c.contents := by
    rcases hu with htop | ⟨e, he, hu⟩
    · exact Multiset.mem_add.2 (Or.inl htop)
    · exact Multiset.mem_add.2 (Or.inr (mem_held.2 ⟨e.n, Table.n_mem_ns he, hu⟩))
  rw [h.contents] at hmem
  exact hmem

/-- While a queue is empty, a host whose queues are all empty has not been seen. -/
lemma not_seen (h : Filled N us c) {host : Str} (hnil : ∃ n ∈ c.table.ns, c.deques n = [])
    (hq : ∀ e ∈ c.table.seq, e.host = host → c.deques e.n = []) : host ∉ us.map Url.host := by
  intro hmem
  obtain ⟨v, hv, rfl⟩ := List.mem_map.1 hmem
  rcases h.mem_place hv with htop | ⟨e, he, hve⟩
  · obtain ⟨n, hn, hdn⟩ := hnil
    exact h.full v htop n hn hdn
  · have hde := hq e he (h.grouped.homogeneous e he v hve).symm
    rw [hde] at hve
    exact absurd hve (by simp)

/-- While a queue is empty, fewer hosts than queues have been seen. -/
lemma length_lt (h : Filled N us c) (hnil : ∃ n ∈ c.table.ns, c.deques n = []) :
    (firstHosts N us).length < N := by
  obtain ⟨n, hn, hdn⟩ := hnil
  obtain ⟨e, he, rfl⟩ := List.mem_map.1 hn
  have hle := card_busyHosts_le c.table.seq c.deques
  have hne : (busyHosts c.table.seq c.deques).card ≠ c.table.seq.length :=
    fun heq => (card_busyHosts_eq_iff _ _).1 heq e he hdn
  rw [h.busy, h.length, Multiset.coe_card] at hle hne
  omega

/-- An empty queue is given to a host that has not been seen. -/
lemma busy_give (h : Filled N us c) {u : Url} {n : ℕ} (hn : n ∈ c.table.ns) (hnil : c.deques n = [])
    (hq : ∀ e ∈ c.table.seq, e.host = u.host → c.deques e.n = []) :
    busyHosts (c.table.seq.map (Table.overwrite { host := u.host, n := n }))
      (Function.update c.deques n [u]) = (firstHosts N (us ++ [u]) : Multiset Str) := by
  have hnew := h.not_seen ⟨n, hn, hnil⟩ hq
  have hlt := h.length_lt ⟨n, hn, hnil⟩
  rw [busyHosts_overwrite u.host c.table.nodup hn hnil (by simp), h.busy, firstHosts_concat,
    if_neg (by rw [not_or]; exact ⟨hnew, by omega⟩), ← Multiset.coe_add, add_comm]
  rfl

lemma push (h : Filled N us c) (u : Url) : Filled N (us ++ [u]) (c.push u) := by
  have hs := step_push c u
  have hfree : c.NotParked (.push u) :=
    fun _ ⟨n, hn, hnil⟩ v hv => absurd hnil (h.full v hv n hn)
  have hgrouped := step_grouped hs hfree h.grouped
  have hcontents : (c.push u).contents = ((us ++ [u] : List Url) : Multiset Url) := by
    have hsum := step_contents hs
    rw [h.contents] at hsum
    rw [← Multiset.coe_add, Multiset.coe_singleton]
    simpa [pushedBy, poppedBy] using hsum.symm
  generalize c.push u = c' at hs hgrouped hcontents
  cases hs with
  | @known u i hf =>
      obtain ⟨hi, hhost⟩ := Table.mem_of_findHost hf
      refine ⟨hgrouped, h.length, hcontents, fun v hv n hn => ?_, ?_⟩
      · by_cases hni : n = i.n
        · simp [hni]
        · rw [deques_setDeque, Function.update_of_ne hni]
          exact h.full v hv n hn
      · by_cases hnil : c.deques i.n = []
        · -- a queue that no host has claimed yet, found under the empty host
          have hself : c.table.seq.map (Table.overwrite { host := u.host, n := i.n })
              = c.table.seq := by
            refine (List.map_congr_left fun a ha => ?_).trans (List.map_id _)
            rw [Table.overwrite]
            split
            · next hn => rw [Table.eq_of_n_eq ha hi hn, ← hhost]; rfl
            · rfl
          have hgive := h.busy_give (u := u) (Table.n_mem_ns hi) hnil fun e he heq => by
            by_contra hne
            have hfe := h.grouped.found e he hne
            rw [heq, hf, Option.some.injEq] at hfe
            exact hne (hfe ▸ hnil)
          rw [hself] at hgive
          rw [deques_setDeque, hnil, List.nil_append]
          exact hgive
        · obtain ⟨v, hv⟩ := List.exists_mem_of_ne_nil _ hnil
          have hseen : u.host ∈ us.map Url.host := by
            rw [← hhost, ← h.grouped.homogeneous i hi v hv]
            exact List.mem_map_of_mem (h.mem_of_place (Or.inr ⟨i, hi, hv⟩))
          rw [firstHosts_concat, if_pos (Or.inl hseen), ← h.busy]
          refine busyHosts_congr fun e _ => ?_
          rw [deques_setDeque]
          by_cases hei : e.n = i.n
          · simp [hei, hnil]
          · rw [Function.update_of_ne hei]
  | @claim u n hf hn hnil =>
      refine ⟨hgrouped, ?_, hcontents, fun v hv => absurd hnil (h.full v hv n hn), ?_⟩
      · rw [Table.seq_replace hn, List.length_map]
        exact h.length
      · rw [Table.seq_replace hn]
        exact h.busy_give hn hnil fun e he heq =>
          absurd heq (Table.findHost_eq_none_iff.1 hf e he)
  | @park u hf hne =>
      refine ⟨hgrouped, h.length, hcontents, fun _ _ => hne, ?_⟩
      have hcard := (card_busyHosts_eq_iff c.table.seq c.deques).2 fun e he =>
        hne e.n (Table.n_mem_ns he)
      rw [h.busy, h.length, Multiset.coe_card] at hcard
      rw [firstHosts_concat, if_pos (Or.inr hcard.ge)]
      exact h.busy

end Filled

lemma filled_new (N : ℕ) : Filled N [] (new Q N) where
  grouped := grouped_new N
  length := by
    have hns := congrArg List.length (ns_new (Q := Q) N)
    rwa [Table.ns, List.length_map, List.length_range] at hns
  contents := contents_new N
  full _ hv := absurd hv (by simp [new, Q.elems_empty])
  busy := by simp [busyHosts, new, firstHosts]

lemma filled_pushAll {N : ℕ} {us : List Url} (h : Filled N us c) (vs : List Url) :
    Filled N (us ++ vs) (Connection.pushAll c vs) := by
  induction vs generalizing us c with
  | nil =>
      rw [List.append_nil]
      exact h
  | cons v vs ih =>
      have hrest := ih (h.push v)
      rwa [List.append_assoc, List.singleton_append] at hrest

/-! ### The places of the hosts -/

/-- The URL is queued in a child queue, or in `top_q`. -/
def At (c : UrlClassifier Q) : Option ℕ → Url → Prop
  | some n, u => n ∈ c.table.ns ∧ u ∈ c.deques n
  | none, u => u ∈ Q.elems c.topQ

/-- The hosts of two URLs are equal after `normalize`. -/
def SameHost (u v : Url) : Prop :=
  ∃ u' v', u.normalize = .ok u' ∧ v.normalize = .ok v' ∧ u'.host = v'.host

/-- Two queued URLs whose hosts are equal after `normalize` are in one place. -/
def GroupedByHost (c : UrlClassifier Q) : Prop :=
  ∀ p q u v, c.At p u → c.At q v → SameHost u v → p = q

namespace Filled

variable {N : ℕ} {us : List Url} {u v : Url} {p q : Option ℕ}

lemma exists_at (h : Filled N us c) (hu : u ∈ us) : ∃ p, c.At p u := by
  rcases h.mem_place hu with htop | ⟨e, he, hu⟩
  · exact ⟨none, htop⟩
  · exact ⟨some e.n, Table.n_mem_ns he, hu⟩

/-- The first hosts have the child queues, and the others are parked. -/
lemma host_mem_iff (h : Filled N us c) (hp : c.At p u) : u.host ∈ firstHosts N us ↔ p ≠ none := by
  rw [← Multiset.mem_coe, ← h.busy, mem_busyHosts]
  cases p with
  | some n =>
      obtain ⟨hn, hu⟩ := hp
      obtain ⟨e, he, rfl⟩ := List.mem_map.1 hn
      have hhost := h.grouped.homogeneous e he u hu
      exact iff_of_true ⟨e, he, List.ne_nil_of_mem hu, hhost.symm⟩ (by simp)
  | none =>
      refine iff_of_false ?_ (by simp)
      rintro ⟨e, he, -, hhost⟩
      exact h.grouped.parked e he u hp hhost.symm

/-- A host is queued in one place. -/
lemma place_unique (h : Filled N us c) (hp : c.At p u) (hq : c.At q v) (huv : u.host = v.host) :
    p = q := by
  have hiff : p ≠ none ↔ q ≠ none := by
    rw [← h.host_mem_iff hp, huv, h.host_mem_iff hq]
  match p, q with
  | none, none => rfl
  | none, some _ => exact absurd (hiff.2 (by simp)) (by simp)
  | some _, none => exact absurd (hiff.1 (by simp)) (by simp)
  | some n, some m =>
      obtain ⟨hn, hu⟩ := hp
      obtain ⟨hm, hv⟩ := hq
      obtain ⟨e, he, rfl⟩ := List.mem_map.1 hn
      obtain ⟨f, hf, rfl⟩ := List.mem_map.1 hm
      by_contra hne
      exact h.grouped.oneQueuePerHost e he f hf (fun hef => hne (congrArg some hef)) u hu v hv huv

/-- A child queue holds one host. -/
lemma host_unique (h : Filled N us c) (hp : c.At p u) (hq : c.At p v) (hne : p ≠ none) :
    u.host = v.host := by
  obtain ⟨n, rfl⟩ := Option.ne_none_iff_exists'.1 hne
  obtain ⟨hn, hu⟩ := hp
  obtain ⟨e, he, rfl⟩ := List.mem_map.1 hn
  rw [h.grouped.homogeneous e he u hu, h.grouped.homogeneous e he v hq.2]

lemma groupedByHost_iff (h : Filled N us c) :
    c.GroupedByHost ↔ ∀ u ∈ us, ∀ v ∈ us, SameHost u v → u.host ≠ v.host →
      u.host ∉ firstHosts N us ∧ v.host ∉ firstHosts N us := by
  constructor
  · intro hg u hu v hv huv hne
    obtain ⟨p, hp⟩ := h.exists_at hu
    obtain ⟨q, hq⟩ := h.exists_at hv
    obtain rfl := hg p q u v hp hq huv
    have hnone : p = none := by
      by_contra hsome
      exact hne (h.host_unique hp hq hsome)
    rw [h.host_mem_iff hp, h.host_mem_iff hq]
    exact ⟨not_not.2 hnone, not_not.2 hnone⟩
  · intro hcond p q u v hp hq huv
    by_cases hhost : u.host = v.host
    · exact h.place_unique hp hq hhost
    · have hmem : ∀ {p : Option ℕ} {w : Url}, c.At p w → w ∈ us := by
        intro p w hw
        cases p with
        | none => exact h.mem_of_place (Or.inl hw)
        | some n =>
            obtain ⟨hn, hw⟩ := hw
            obtain ⟨e, he, rfl⟩ := List.mem_map.1 hn
            exact h.mem_of_place (Or.inr ⟨e, he, hw⟩)
      obtain ⟨hu, hv⟩ := hcond u (hmem hp) v (hmem hq) huv hhost
      rw [h.host_mem_iff hp, not_not] at hu
      rw [h.host_mem_iff hq, not_not] at hv
      rw [hu, hv]

end Filled

end UrlClassifier

namespace Connection

lemma feed_filled (Q : PriorityQueue hostKey) (N : ℕ) (reads : List Str) (eof : Bool) :
    ∃ k, (new Q N).feed reads eof = .ok k ∧
      UrlClassifier.Filled N (streamUrls reads.flatten eof) k.classifier := by
  obtain ⟨k, hk, hc⟩ := feed_eq (Q := Q) N reads eof
  refine ⟨k, hk, ?_⟩
  rw [hc]
  exact UrlClassifier.filled_pushAll (UrlClassifier.filled_new N) (streamUrls reads.flatten eof)

/-- After any byte stream, two queued URLs whose hosts are equal after `normalize` are in one place
exactly when no host of the stream that has another spelling in it is among the first `N` spellings,
which are those that get a child queue. -/
theorem feed_groupedByHost_iff (Q : PriorityQueue hostKey) (N : ℕ) (reads : List Str) (eof : Bool) :
    ∃ k, (new Q N).feed reads eof = .ok k ∧
      (k.classifier.GroupedByHost ↔
        ∀ u ∈ streamUrls reads.flatten eof, ∀ v ∈ streamUrls reads.flatten eof,
          UrlClassifier.SameHost u v → u.host ≠ v.host →
          u.host ∉ UrlClassifier.firstHosts N (streamUrls reads.flatten eof) ∧
            v.host ∉ UrlClassifier.firstHosts N (streamUrls reads.flatten eof)) := by
  obtain ⟨k, hk, hfilled⟩ := feed_filled Q N reads eof
  exact ⟨k, hk, hfilled.groupedByHost_iff⟩

/-- The URL with the path `/` on a host. -/
def rootUrl (host : String) : Url where
  scheme := lit "http"
  hasAuthority := true
  host := lit host
  path := Path.assign (lit "/")

/-- The two spellings of the host `a` get a child queue each. -/
theorem not_groupedByHost_case :
    ∃ k, (new (PriorityQueue.ofList hostKey) 2).feed [lit "http://A/\nhttp://a/\n"] true = .ok k ∧
      ¬ k.classifier.GroupedByHost := by
  have hus : streamUrls [lit "http://A/\nhttp://a/\n"].flatten true
      = [rootUrl "A", rootUrl "a"] := rfl
  have hsame : UrlClassifier.SameHost (rootUrl "A") (rootUrl "a") :=
    ⟨rootUrl "a", rootUrl "a", rfl, rfl, rfl⟩
  obtain ⟨k, hk, hfilled⟩ := feed_filled (PriorityQueue.ofList hostKey) 2
    [lit "http://A/\nhttp://a/\n"] true
  rw [hus] at hfilled
  refine ⟨k, hk, fun hg => ?_⟩
  have hplaces := hfilled.groupedByHost_iff.1 hg _ (by simp) _ (by simp) hsame (by decide)
  exact hplaces.1 (by decide)

end Connection

end Mycelium
