import Mycelium.Common.UrlNormalize

/-!
# Documents

`struct Doc`, with `save` and `load_url` over a collection of the database.  A collection is a map
from the text of a URL to a document, and `update` has the meaning of an upsert with `$set`.

The fields that `save` leaves out have the value that a new `Doc` has, so that everything that was
saved is read back into a new `Doc`.  What `load_url` returns says the opposite.
-/

namespace Mycelium

/-! ### The database -/

namespace Bson

/-- The fields of a stored document. -/
inductive Field where
  | url | effUrl | httpCode | curlCode | curlError | modified | crawled | content | headers
  | etag | contentType | charset | flags | title | rss2 | rss | atom
deriving DecidableEq, Repr

/-- The values of the fields, by their type in the database. -/
inductive Value where
  | string (s : Str)
  | int (n : Int32)
  | long (n : Int64)
  | binData (b : Str)
deriving DecidableEq, Repr

/-- `BSONObj`. -/
abbrev Obj := Field → Option Value

/-- A collection, by the text of the field `url`. -/
abbrev Collection := Str → Option Obj

/-- `update(ns, BSON("url" << key), BSON("$set" << b), true)`. -/
def Collection.update (c : Collection) (key : Str) (b : Obj) : Collection :=
  Function.update c key (some fun f => (b f).or ((c key).bind (· f)))

/-- `query(ns, QUERY("url" << key))`: the documents of the cursor. -/
def Collection.query (c : Collection) (key : Str) : List Obj := (c key).toList

/-- The check of the type of a field. -/
def wrongType : Exn := .dbException (lit "Wrong type for field")

/-- `Val(v)` on a string; the driver reads up to the first null character. -/
def Value.valString : Value → Except Exn Str
  | .string s => .ok (s.takeWhile (· != 0))
  | _ => .error wrongType

/-- `Val(v)` and `Int()` on a number of 32 bits. -/
def Value.valInt : Value → Except Exn Int32
  | .int n => .ok n
  | _ => .error wrongType

/-- `numberLong()`. -/
def Value.numberLong : Value → Int64
  | .long n => n
  | .int n => n.toInt64
  | _ => 0

/-- `binData(len)`. -/
def Value.binDataBytes : Value → Except Exn Str
  | .binData b => .ok b
  | _ => .error wrongType

/-- `if (doc.hasField(f)) …`: the variable keeps its value when the field is not there. -/
def readField {α : Type} (val : Value → Except Exn α) (o : Obj) (f : Field) (old : α) :
    Except Exn α :=
  match o f with
  | some v => val v
  | none => .ok old

end Bson

open Bson

/-- `struct Doc`; `FLAG_SIZE` is 6. -/
structure Doc where
  url : Url := {}
  effUrl : Url := {}
  httpCode : Int32 := 0
  curlCode : Int32 := -1
  curlError : Str := []
  modified : Int64 := -1
  crawled : Int64 := -1
  content : Str := []
  headers : Str := []
  etag : Str := []
  contentType : Int32
  charset : Str := []
  flags : BitVec 6 := 0
  title : Str := []
  rss2 : Str := []
  rss : Str := []
  atom : Str := []
deriving DecidableEq, Repr

namespace Doc

section Unset

-- `content_type::UNSET`, from a header that is generated
variable (unset : Int32)

/-- `Doc()`. -/
def new : Doc := { contentType := unset }

/-- The object that `save` builds: a field is left out when it has the value of a new document. -/
def bson (d : Doc) : Obj
  | .url => some (.string d.url.get)
  | .effUrl => if d.effUrl.empty then none else some (.string d.effUrl.get)
  | .httpCode => if d.httpCode = 0 then none else some (.int d.httpCode)
  | .curlCode => if d.curlCode = -1 then none else some (.int d.curlCode)
  | .curlError => if d.curlError.isEmpty then none else some (.string d.curlError)
  | .modified => if d.modified = -1 then none else some (.long d.modified)
  | .crawled => if d.crawled = -1 then none else some (.long d.crawled)
  | .content => if d.content.isEmpty then none else some (.binData d.content)
  | .headers => if d.headers.isEmpty then none else some (.string d.headers)
  | .etag => if d.etag.isEmpty then none else some (.string d.etag)
  | .contentType =>
      if d.contentType = unset then none else some (.int d.contentType.toUInt32.toInt32)
  | .charset => if d.charset.isEmpty then none else some (.string d.charset)
  | .flags => if d.flags = 0 then none else some (.int (Int32.ofNat d.flags.toNat))
  | .title => if d.title.isEmpty then none else some (.string d.title)
  | .rss2 => if d.rss2.isEmpty then none else some (.string d.rss2)
  | .rss => if d.rss.isEmpty then none else some (.string d.rss)
  | .atom => if d.atom.isEmpty then none else some (.string d.atom)

/-- The beginning of `Doc::save`, which normalizes the URL in place. -/
def prepare (d : Doc) : Except Exn Doc :=
  if d.url.empty then .error (.runtimeError (lit "url is empty"))
  else do
    let url ← d.url.normalize
    .ok { d with url := url }

/-- `Doc::save`: the document and the collection after it. -/
def save (d : Doc) (c : Collection) : Except Exn (Doc × Collection) := do
  let d ← d.prepare
  .ok (d, c.update d.url.get (d.bson unset))

end Unset

/-- The effective URL is parsed from its text. -/
def valUrl (v : Value) : Except Exn Url := v.valString >>= Url.assign

/-- The flags are the lowest bits of the number. -/
def valFlags (v : Value) : Except Exn (BitVec 6) :=
  v.valInt >>= fun n => .ok (BitVec.ofInt 6 n.toInt)

/-- The body of the loop of `Doc::load_url`. -/
def readObj (d : Doc) (o : Obj) : Except Exn Doc := do
  let effUrl ← readField valUrl o .effUrl d.effUrl
  let httpCode ← readField Value.valInt o .httpCode d.httpCode
  let curlCode ← readField Value.valInt o .curlCode d.curlCode
  let curlError ← readField Value.valString o .curlError d.curlError
  let modified ← readField (fun v => .ok v.numberLong) o .modified d.modified
  let crawled ← readField (fun v => .ok v.numberLong) o .crawled d.crawled
  let content ← readField Value.binDataBytes o .content d.content
  let headers ← readField Value.valString o .headers d.headers
  let etag ← readField Value.valString o .etag d.etag
  let contentType ← readField Value.valInt o .contentType d.contentType
  let charset ← readField Value.valString o .charset d.charset
  let flags ← readField valFlags o .flags d.flags
  let title ← readField Value.valString o .title d.title
  let rss2 ← readField Value.valString o .rss2 d.rss2
  let rss ← readField Value.valString o .rss d.rss
  let atom ← readField Value.valString o .atom d.atom
  .ok { d with
    effUrl := effUrl, httpCode := httpCode, curlCode := curlCode, curlError := curlError
    modified := modified, crawled := crawled, content := content, headers := headers
    etag := etag, contentType := contentType, charset := charset, flags := flags
    title := title, rss2 := rss2, rss := rss, atom := atom }

/-- The loop of `Doc::load_url` over the cursor, after the URL has been set; `gotone` is the flag
of the source. -/
def loadLoop (d : Doc) (gotone : Bool) : List Obj → Except Exn (Doc × Bool)
  | [] => .ok (d, gotone)
  | o :: cursor => do
      let d ← d.readObj o
      d.loadLoop true cursor

/-- `Doc::load_url`: the document, and what is returned. -/
def loadUrl (d : Doc) (c : Collection) (u : Url) : Except Exn (Doc × Bool) := do
  let url ← u.normalize
  let r ← { d with url := url }.loadLoop false (c.query url.get)
  -- `return false;` whatever `gotone` says
  .ok (r.1, false)

/-! ### Reading back -/

section ReadBack

variable {unset : Int32} {d : Doc}

/-- A field that is left out when it has its default is read back. -/
lemma readField_ite {α : Type} {val : Value → Except Exn α} {o : Obj} {f : Field} {old x : α}
    {p : Prop} [Decidable p] {v : Value} (ho : o f = if p then none else some v) (hp : p → x = old)
    (hv : val v = .ok x) : readField val o f old = .ok x := by
  by_cases h : p
  · simp [readField, ho, h, hp h]
  · simp [readField, ho, h, hv]

lemma valString_of_not_mem {s : Str} (h : 0 ∉ s) : (Value.string s).valString = .ok s := by
  rw [Value.valString, List.takeWhile_eq_self_iff.2 (Lib.bne_of_notMem h)]

/-- The text fields hold no null character. -/
structure NulFree (d : Doc) : Prop where
  effUrl : 0 ∉ d.effUrl.get
  curlError : 0 ∉ d.curlError
  headers : 0 ∉ d.headers
  etag : 0 ∉ d.etag
  charset : 0 ∉ d.charset
  title : 0 ∉ d.title
  rss2 : 0 ∉ d.rss2
  rss : 0 ∉ d.rss
  atom : 0 ∉ d.atom

lemma flags_roundTrip (b : BitVec 6) :
    BitVec.ofInt 6 (Int32.ofNat b.toNat).toInt = b := by
  revert b
  decide

/-- Everything that is saved is read back into a new document, except that the effective URL is
parsed again. -/
lemma readObj_bson (h : d.NulFree) {e : Url} (he : d.effUrl.empty = true → e = {})
    (he' : d.effUrl.empty = false → Url.assign d.effUrl.get = .ok e) (u : Url) :
    ({ new unset with url := u } : Doc).readObj (d.bson unset)
      = .ok { d with url := u, effUrl := e } := by
  have heff : readField valUrl (d.bson unset) .effUrl {} = .ok e := by
    rw [readField, bson]
    cases hempty : d.effUrl.empty with
    | true => simp [he hempty]
    | false => simp [valUrl, valString_of_not_mem h.effUrl, bind, Except.bind, he' hempty]
  have hhttp : readField Value.valInt (d.bson unset) .httpCode 0 = .ok d.httpCode :=
    readField_ite rfl id rfl
  have hcurl : readField Value.valInt (d.bson unset) .curlCode (-1) = .ok d.curlCode :=
    readField_ite rfl id rfl
  have hmod : readField (fun v => .ok v.numberLong) (d.bson unset) .modified (-1)
      = .ok d.modified := readField_ite rfl id rfl
  have hcrawled : readField (fun v => .ok v.numberLong) (d.bson unset) .crawled (-1)
      = .ok d.crawled := readField_ite rfl id rfl
  have hcontent : readField Value.binDataBytes (d.bson unset) .content [] = .ok d.content :=
    readField_ite rfl List.isEmpty_iff.1 rfl
  have htype : readField Value.valInt (d.bson unset) .contentType unset = .ok d.contentType :=
    readField_ite rfl id (by simp [Value.valInt])
  have hflags : readField valFlags (d.bson unset) .flags 0 = .ok d.flags :=
    readField_ite rfl id (congrArg Except.ok (flags_roundTrip d.flags))
  -- the eight text fields are alike
  have hstr : ∀ {f : Field} {s : Str}, d.bson unset f = (if s.isEmpty then none else
      some (.string s)) → 0 ∉ s → readField Value.valString (d.bson unset) f [] = .ok s :=
    fun ho hs => readField_ite ho List.isEmpty_iff.1 (valString_of_not_mem hs)
  simp only [readObj, new, heff, hhttp, hcurl, hmod, hcrawled, hcontent, htype, hflags,
    hstr (f := .curlError) rfl h.curlError, hstr (f := .headers) rfl h.headers,
    hstr (f := .etag) rfl h.etag, hstr (f := .charset) rfl h.charset,
    hstr (f := .title) rfl h.title, hstr (f := .rss2) rfl h.rss2, hstr (f := .rss) rfl h.rss,
    hstr (f := .atom) rfl h.atom, bind, Except.bind]

lemma query_update {c : Collection} {key : Str} (h : c key = none) (b : Obj) :
    (c.update key b).query key = [b] := by
  simp [Collection.update, Collection.query, h]

/-- A saved document is read back into a new one, and `load_url` says that there is none. -/
theorem loadUrl_save {c : Collection} {v e : Url} (h : d.NulFree) (hne : d.url.empty = false)
    (hnorm : d.url.normalize = .ok v) (habsent : c v.get = none)
    (he : d.effUrl.empty = true → e = {})
    (he' : d.effUrl.empty = false → Url.assign d.effUrl.get = .ok e) :
    ∃ d' c', d.save unset c = .ok (d', c') ∧
      (new unset).loadUrl c' d.url = .ok ({ d with url := v, effUrl := e }, false) := by
  refine ⟨{ d with url := v }, c.update v.get (bson unset { d with url := v }), ?_, ?_⟩
  · simp [save, prepare, hne, hnorm, bind, Except.bind]
  · have hread : ({ new unset with url := v } : Doc).readObj (bson unset { d with url := v })
        = .ok { d with url := v, effUrl := e } :=
      readObj_bson (d := { d with url := v })
        ⟨h.effUrl, h.curlError, h.headers, h.etag, h.charset, h.title, h.rss2, h.rss, h.atom⟩
        he he' v
    simp only [loadUrl, hnorm, query_update habsent, loadLoop, hread, bind, Except.bind]

lemma loadUrl_snd {c : Collection} {u : Url} {r : Doc × Bool} (h : d.loadUrl c u = .ok r) :
    r.2 = false := by
  obtain ⟨v, -, h⟩ := bind_eq_ok.1 h
  obtain ⟨p, -, h⟩ := bind_eq_ok.1 h
  rw [← Except.ok.inj h]

/-- The stored fields of two documents are the same; URLs are compared by their text. -/
def SameFields (l d : Doc) : Prop :=
  l.effUrl.get = d.effUrl.get ∧ l.httpCode = d.httpCode ∧ l.curlCode = d.curlCode ∧
    l.curlError = d.curlError ∧ l.modified = d.modified ∧ l.crawled = d.crawled ∧
    l.content = d.content ∧ l.headers = d.headers ∧ l.etag = d.etag ∧
    l.contentType = d.contentType ∧ l.charset = d.charset ∧ l.flags = d.flags ∧
    l.title = d.title ∧ l.rss2 = d.rss2 ∧ l.rss = d.rss ∧ l.atom = d.atom

/-- A document that is saved is found again under its URL, and was not found before. -/
def FoundAgain (unset : Int32) (d : Doc) (c : Collection) : Prop :=
  (∃ l, (new unset).loadUrl c d.url = .ok (l, false)) ∧
    ∃ d' c' l, d.save unset c = .ok (d', c') ∧ (new unset).loadUrl c' d.url = .ok (l, true) ∧
      SameFields l d

/-- No document is ever found again: `load_url` returns `false` whatever it has read. -/
theorem not_foundAgain (unset : Int32) (d : Doc) (c : Collection) : ¬ FoundAgain unset d c := by
  rintro ⟨-, d', c', l, -, hload, -⟩
  exact absurd (loadUrl_snd hload) (by simp)

/-- A document with a title that is saved into an empty collection: its title is read back, and
`load_url` returns `false`. -/
theorem loadUrl_false_after_save :
    ∃ d' c' l, save 0 { url := { scheme := lit "http", hasAuthority := true, host := lit "a"
                                 path := Path.assign (lit "/") }
                        contentType := 1, title := lit "t" } (fun _ => none) = .ok (d', c') ∧
      (new 0).loadUrl c' { scheme := lit "http", hasAuthority := true, host := lit "a"
                           path := Path.assign (lit "/") } = .ok (l, false) ∧
      l.title = lit "t" ∧ l.contentType = 1 := by
  refine ⟨_, _, _, rfl, rfl, rfl, rfl⟩

end ReadBack

end Doc

end Mycelium
