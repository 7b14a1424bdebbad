import Mathlib.Data.Finmap
import Mycelium.Common.Bytes
import Mycelium.Lib.Lines
import Mycelium.Lib.Regex

/-!
# HTTP headers

`utils::parse_http_headers` cuts a block of headers into lines, matches each of them against
`HEADER_RE`, and enters the names with their values into a map.  From the value of `Content-Type` it
finds the type and the charset of the document.

The map is right for every block that was printed from names and values.  The type is not: the test
for `application/xhtml+xml` takes the position that `find` returns for its truth, so that it holds
of every value that does not start with this string.  And a block without `Content-Type` leaves the
type as it was, which in `EasyHandle::done` is a variable without a value.
-/

namespace Mycelium

open Lib

/-! ### Searching -/

/-- `std::string::find`. -/
def find (x : Str) : Str → Option ℕ
  | [] => if x.isEmpty then some 0 else none
  | c :: s => if x.isPrefixOf (c :: s) then some 0 else (find x s).map (· + 1)

lemma find_isSome_iff (x s : Str) : (find x s).isSome = true ↔ x <:+: s := by
  induction s with
  | nil =>
      rw [find, List.infix_nil]
      split
      · next h => simpa using h
      · next h => simpa using h
  | cons c s ih =>
      rw [find, List.infix_cons_iff]
      split
      · next h => simp [List.isPrefixOf_iff_prefix.1 h]
      · next h =>
          rw [List.isPrefixOf_iff_prefix] at h
          rw [Option.isSome_map, ih, or_iff_right h]

lemma find_eq_zero_iff (x s : Str) : find x s = some 0 ↔ x <+: s := by
  cases s with
  | nil =>
      rw [find, List.prefix_nil]
      split
      · next h => simpa using h
      · next h => simpa using h
  | cons c s =>
      rw [find]
      split
      · next h => simp [List.isPrefixOf_iff_prefix.1 h]
      · next h =>
          rw [List.isPrefixOf_iff_prefix] at h
          simp [h]

/-- The character class of `CHARSET_RE`. -/
def isCharsetChar (c : UInt8) : Bool :=
  !(c < 0x20 || c == 0x7F) && !(lit "()<>@,;\\:\"/[]?=\x7b\x7d").contains c

/-- The first match of `CHARSET_RE`, "charset=" and at least one character of the class.  The files
`utils.cc` and `HTML_lexer.cc` have the same expression. -/
def charsetSearch : Str → Option Str
  | [] => none
  | c :: s =>
      let value := ((c :: s).drop 8).takeWhile isCharsetChar
      if (lit "charset=").isPrefixOf (c :: s) && !value.isEmpty then some value
      else charsetSearch s

/-! ### The parser -/

/-- The enumerators of `content_type_t` that the parser assigns. -/
inductive ContentType where
  | textHtml | textPlain | xhtml | applicationPdf | rssXml | atomXml | unrecognized
deriving DecidableEq, Repr

/-- The values of the enumerators, from the generated header `content_type.hh`. -/
structure ContentTypes where
  value : ContentType → Int32
  injective : Function.Injective value

/-- The output arguments of `parse_http_headers`. -/
structure ParsedHeaders where
  contentType : Int32
  charsetHttpHead : Str := []
  headermap : Finmap fun _ : Str => Str := ∅

namespace ParsedHeaders

/-- The class of the first group of `HEADER_RE`, `[^()<>@,;\\:"/\[\]?={}\t]`. -/
def isNameChar (c : UInt8) : Bool := !(lit "()<>@,;\\:\"/[]?=\x7b\x7d\t").contains c

/-- The two groups of a match of `HEADER_RE`.  As the class of the first group does not have the
colon, the group ends at the first colon, and at the first character that is not in the class. -/
def headerMatch (header : Str) : Option (Str × Str) :=
  let name := header.takeWhile isNameChar
  match header.dropWhile isNameChar with
  | c :: value =>
      if c == Byte.colon && !name.isEmpty && !value.isEmpty then some (name, value) else none
  | [] => none

/-- The chain of tests for the value of `Content-Type`. -/
def classify (value : Str) : ContentType :=
  if (find (lit "text/html") value).isSome then .textHtml
  else if (find (lit "text/plain") value).isSome then .textPlain
  -- the position itself is the condition, and it is zero at the start of the value only
  else if find (lit "application/xhtml+xml") value ≠ some 0 then .xhtml
  else if (find (lit "application/pdf") value).isSome then .applicationPdf
  else if (find (lit "application/rss+xml") value).isSome then .rssXml
  else if (find (lit "application/atom+xml") value).isSome then .atomXml
  else .unrecognized

/-- `regex_match(name, content_type_re)`, for `^Content-Type$` in any letter case. -/
def isContentType (name : Str) : Bool := name.map toLower == (lit "Content-Type").map toLower

/-- What is done with the value of `Content-Type`. -/
def readContentType (t : ContentTypes) (r : ParsedHeaders) (value : Str) : ParsedHeaders :=
  let r := { r with contentType := t.value (classify value) }
  match charsetSearch value with
  | some m => { r with charsetHttpHead := m }
  | none => r

/-- The body of the loop of `parse_http_headers`. -/
def readHeader (t : ContentTypes) (r : ParsedHeaders) (header : Str) : ParsedHeaders :=
  -- `hare > tortoise+1`
  if header.length > 1 then
    match headerMatch header with
    | some (name, value) =>
        let r := if isContentType name then r.readContentType t value else r
        { r with headermap := r.headermap.insert name value }
    | none => r
  else r

/-- `utils::parse_http_headers`.  A last line that is not ended is not read. -/
def parseHttpHeaders (t : ContentTypes) (headers : Str) (r : ParsedHeaders) : ParsedHeaders :=
  (eachLine isSeparator (readHeader t) r [] headers).1

/-! ### One header -/

/-- The groups of `HEADER_RE` on a line. -/
lemma headerMatch_eq_some_iff {header name value : Str} :
    headerMatch header = some (name, value) ↔
      (Regex.plus (.cls isNameChar)).Matches name ∧
      (Regex.plus (.cls fun _ => true)).Matches value ∧
        header = name ++ Byte.colon :: value := by
  simp only [Regex.matches_plus_cls_iff, implies_true, and_true]
  have hcolon : isNameChar Byte.colon = false := by decide
  constructor
  · intro h
    rw [headerMatch] at h
    split at h
    · next c v hdrop =>
        split at h
        · next hcond =>
            simp only [Bool.and_eq_true, beq_iff_eq, Bool.not_eq_true', List.isEmpty_eq_false_iff]
              at hcond
            obtain ⟨⟨rfl, hname⟩, hvalue⟩ := hcond
            obtain ⟨rfl, rfl⟩ := Prod.mk.inj (Option.some.inj h)
            refine ⟨⟨hname, fun c hc => List.mem_takeWhile_imp hc⟩, hvalue, ?_⟩
            rw [← hdrop, List.takeWhile_append_dropWhile]
        · exact absurd h (by simp)
    · exact absurd h (by simp)
  · rintro ⟨⟨hne, hname⟩, hvalue, rfl⟩
    have hstop : ∀ c ∈ (Byte.colon :: value).head?, isNameChar c = false := by
      intro c hc
      rwa [← Option.some.inj hc]
    rw [headerMatch, takeWhile_append_of_stop hname hstop, dropWhile_append_of_stop hname hstop]
    simp [hne, hvalue]

lemma parseHttpHeaders_eq (t : ContentTypes) (headers : Str) (r : ParsedHeaders) :
    parseHttpHeaders t headers r = (lines isSeparator headers).foldl (readHeader t) r := by
  rw [parseHttpHeaders, eachLine_eq _ _ (by simp), List.nil_append]

lemma length_of_headerMatch {header name value : Str}
    (h : headerMatch header = some (name, value)) : 1 < header.length := by
  obtain ⟨hname, -, rfl⟩ := headerMatch_eq_some_iff.1 h
  have hpos := List.length_pos_iff.2 (Regex.matches_plus_cls_iff.1 hname).1
  rw [List.length_append, List.length_cons]
  omega

/-- The lines that are too short to be looked at would not match. -/
lemma readHeader_of_none (t : ContentTypes) (r : ParsedHeaders) {header : Str}
    (h : headerMatch header = none) : r.readHeader t header = r := by
  rw [readHeader, h]
  split <;> rfl

lemma readHeader_of_some (t : ContentTypes) (r : ParsedHeaders) {header name value : Str}
    (h : headerMatch header = some (name, value)) :
    r.readHeader t header =
      let r' := if isContentType name then r.readContentType t value else r
      { r' with headermap := r'.headermap.insert name value } := by
  rw [readHeader, if_pos (length_of_headerMatch h), h]

lemma headermap_readContentType (t : ContentTypes) (r : ParsedHeaders) (value : Str) :
    (r.readContentType t value).headermap = r.headermap := by
  rw [readContentType]
  split <;> rfl

lemma contentType_readContentType (t : ContentTypes) (r : ParsedHeaders) (value : Str) :
    (r.readContentType t value).contentType = t.value (classify value) := by
  rw [readContentType]
  split <;> rfl

lemma headermap_readHeader (t : ContentTypes) (r : ParsedHeaders) {header name value : Str}
    (h : headerMatch header = some (name, value)) :
    (r.readHeader t header).headermap = r.headermap.insert name value := by
  rw [readHeader_of_some t r h]
  split
  · exact congrArg (fun m : Finmap _ => m.insert name value) (headermap_readContentType t r value)
  · rfl

lemma contentType_readHeader (t : ContentTypes) (r : ParsedHeaders) {header name value : Str}
    (h : headerMatch header = some (name, value)) :
    (r.readHeader t header).contentType =
      if isContentType name then t.value (classify value) else r.contentType := by
  rw [readHeader_of_some t r h]
  split
  · exact contentType_readContentType t r value
  · rfl

/-! ### The type -/

/-- The name is `Content-Type`, in any letter case. -/
def IsContentType (name : Str) : Prop := name.map toLower = lit "content-type"

/-- A line with the name `Content-Type`. -/
def IsContentTypeLine (l : Str) : Prop :=
  ∃ name value, IsContentType name ∧ l = name ++ Byte.colon :: value

/-- A line with the name `Content-Type` and a value that is not empty. -/
def IsContentTypeHeader (l : Str) : Prop :=
  ∃ name value, IsContentType name ∧ value ≠ [] ∧ l = name ++ Byte.colon :: value

lemma colon_notMem_of_isContentType {name : Str} (h : IsContentType name) : Byte.colon ∉ name := by
  intro hmem
  have hlower : toLower Byte.colon ∈ lit "content-type" := h ▸ List.mem_map_of_mem hmem
  exact absurd hlower (by decide)

instance (name : Str) : Decidable (IsContentType name) :=
  inferInstanceAs (Decidable (_ = _))

lemma isContentTypeLine_iff {l : Str} :
    IsContentTypeLine l ↔ IsContentType (l.takeWhile (· != Byte.colon)) ∧ Byte.colon ∈ l := by
  constructor
  · rintro ⟨name, value, hname, rfl⟩
    rw [takeWhile_bne_append (colon_notMem_of_isContentType hname)]
    exact ⟨hname, by simp⟩
  · rintro ⟨hname, hcolon⟩
    obtain ⟨x, z, rfl, hx⟩ := List.eq_append_cons_of_mem hcolon
    rw [takeWhile_bne_append hx] at hname
    exact ⟨x, z, hname, rfl⟩

instance (l : Str) : Decidable (IsContentTypeLine l) :=
  decidable_of_iff _ isContentTypeLine_iff.symm

lemma isContentType_iff {name : Str} : isContentType name = true ↔ IsContentType name := by
  have hlower : (lit "Content-Type").map toLower = lit "content-type" := by decide
  rw [isContentType, hlower, beq_iff_eq]
  rfl

/-- `HEADER_RE` lets the name `Content-Type` pass. -/
lemma headerMatch_contentType {name value : Str} (hname : IsContentType name)
    (hvalue : value ≠ []) :
    headerMatch (name ++ Byte.colon :: value) = some (name, value) := by
  have hsep : (lit "()<>@,;\\:\"/[]?=\x7b\x7d\t").all
      (fun c => !(lit "content-type").contains (toLower c)) = true := by decide
  have hne : name ≠ [] := by
    rintro rfl
    exact (by decide : ([] : Str) ≠ lit "content-type") hname
  refine headerMatch_eq_some_iff.2 ⟨Regex.matches_plus_cls_iff.2 ⟨hne, fun c hc => ?_⟩,
    Regex.matches_plus_cls_iff.2 ⟨hvalue, fun _ _ => rfl⟩, rfl⟩
  rw [isNameChar, Bool.not_eq_true', List.contains_eq_mem, decide_eq_false_iff_not]
  intro hmem
  have hlower : toLower c ∈ lit "content-type" := hname ▸ List.mem_map_of_mem hc
  simpa [hlower] using List.all_eq_true.1 hsep c hmem

/-- The other lines leave the type as it is. -/
lemma contentType_readHeader_of_not (t : ContentTypes) (r : ParsedHeaders) {l : Str}
    (h : ¬IsContentTypeHeader l) : (r.readHeader t l).contentType = r.contentType := by
  cases hmatch : headerMatch l with
  | none => rw [readHeader_of_none t r hmatch]
  | some m =>
      obtain ⟨name, value⟩ := m
      obtain ⟨-, hvalue, hl⟩ := headerMatch_eq_some_iff.1 hmatch
      rw [contentType_readHeader t r hmatch, if_neg]
      rw [isContentType_iff]
      exact fun hname => h ⟨name, value, hname, (Regex.matches_plus_cls_iff.1 hvalue).1, hl⟩

lemma contentType_foldl_of_not (t : ContentTypes) (r : ParsedHeaders) {ls : List Str}
    (h : ∀ l ∈ ls, ¬IsContentTypeHeader l) :
    (ls.foldl (readHeader t) r).contentType = r.contentType := by
  induction ls generalizing r with
  | nil => rfl
  | cons l ls ih =>
      obtain ⟨hl, hls⟩ := List.forall_mem_cons.1 h
      rw [List.foldl_cons, ih _ hls, contentType_readHeader_of_not t r hl]

/-- What a line makes of the type depends on the type only. -/
lemma contentType_readHeader_congr (t : ContentTypes) {r r' : ParsedHeaders}
    (h : r.contentType = r'.contentType) (l : Str) :
    (r.readHeader t l).contentType = (r'.readHeader t l).contentType := by
  cases hmatch : headerMatch l with
  | none => rw [readHeader_of_none t r hmatch, readHeader_of_none t r' hmatch, h]
  | some m => rw [contentType_readHeader t r hmatch, contentType_readHeader t r' hmatch, h]

lemma contentType_foldl_congr (t : ContentTypes) {r r' : ParsedHeaders}
    (h : r.contentType = r'.contentType) (ls : List Str) :
    (ls.foldl (readHeader t) r).contentType = (ls.foldl (readHeader t) r').contentType := by
  induction ls generalizing r r' with
  | nil => exact h
  | cons l ls ih => exact ih (contentType_readHeader_congr t h l)

/-- The strings that are looked for, with the types that they stand for. -/
def types : List (Str × ContentType) :=
  [(lit "text/html", .textHtml), (lit "text/plain", .textPlain),
    (lit "application/xhtml+xml", .xhtml), (lit "application/pdf", .applicationPdf),
    (lit "application/rss+xml", .rssXml), (lit "application/atom+xml", .atomXml)]

/-- The types whose strings a value contains. -/
def contained (value : Str) : List ContentType :=
  (types.filter fun x => x.1 <:+: value).map Prod.snd

/-- The value contains exactly one of the strings, which stands for the type, or none of them. -/
def HasType (value : Str) (ct : ContentType) : Prop :=
  contained value = [ct] ∨ contained value = [] ∧ ct = .unrecognized

lemma HasType.eq_of_contains {value : Str} {ct : ContentType} (h : HasType value ct)
    {x : Str × ContentType} (hx : x ∈ types) (hsub : x.1 <:+: value) : ct = x.2 := by
  have hmem : x.2 ∈ contained value :=
    List.mem_map_of_mem (List.mem_filter.2 ⟨hx, decide_eq_true hsub⟩)
  rcases h with h | ⟨h, -⟩
  · rw [h, List.mem_singleton] at hmem
    exact hmem.symm
  · rw [h] at hmem
    exact absurd hmem List.not_mem_nil

lemma HasType.contains {value : Str} {ct : ContentType} (h : HasType value ct)
    {x : Str × ContentType} (hx : x ∈ types) (hct : ct = x.2) : x.1 <:+: value := by
  have hnodup : (types.map Prod.snd).Nodup := by decide
  have hun : ∀ y ∈ types, y.2 ≠ .unrecognized := by decide
  rcases h with h | ⟨-, h⟩
  · have hmem : ct ∈ contained value := by
      rw [h]
      exact List.mem_singleton_self ct
    obtain ⟨y, hy, hyct⟩ := List.mem_map.1 hmem
    obtain ⟨hy, hsub⟩ := List.mem_filter.1 hy
    rw [List.inj_on_of_nodup_map hnodup hx hy (hct.symm.trans hyct.symm)]
    exact of_decide_eq_true hsub
  · exact absurd (hct.symm.trans h) (hun x hx)

/-- The tests find the type exactly if one of the first three strings is there, and the third one
not at the start. -/
lemma classify_eq_iff {value : Str} {ct : ContentType} (h : HasType value ct) :
    classify value = ct ↔ ct = .textHtml ∨ ct = .textPlain ∨
      ct = .xhtml ∧ ¬lit "application/xhtml+xml" <+: value := by
  simp only [classify, find_isSome_iff, ne_eq, find_eq_zero_iff]
  by_cases hhtml : lit "text/html" <:+: value
  · obtain rfl : ct = .textHtml :=
      h.eq_of_contains (x := (lit "text/html", _)) (by simp [types]) hhtml
    simp [hhtml]
  by_cases hplain : lit "text/plain" <:+: value
  · obtain rfl : ct = .textPlain :=
      h.eq_of_contains (x := (lit "text/plain", _)) (by simp [types]) hplain
    simp [hhtml, hplain]
  have hneHtml : ct ≠ .textHtml := fun hct =>
    hhtml (h.contains (x := (lit "text/html", .textHtml)) (by simp [types]) hct)
  have hnePlain : ct ≠ .textPlain := fun hct =>
    hplain (h.contains (x := (lit "text/plain", .textPlain)) (by simp [types]) hct)
  rw [if_neg hhtml, if_neg hplain]
  by_cases hstart : lit "application/xhtml+xml" <+: value
  · -- the test fails for the only string that is there
    obtain rfl : ct = .xhtml :=
      h.eq_of_contains (x := (lit "application/xhtml+xml", _)) (by simp [types]) hstart.isInfix
    rw [if_neg (not_not.2 hstart)]
    refine iff_of_false ?_ (by simp [hstart])
    split_ifs <;> simp
  · rw [if_pos hstart]
    simp [hneHtml, hnePlain, hstart, eq_comm]

/-- A line without a value is not read. -/
lemma not_isContentTypeHeader_nil {name : Str} (h : IsContentType name) :
    ¬IsContentTypeHeader (name ++ [Byte.colon]) := by
  rintro ⟨name', value, hname', hvalue, heq⟩
  obtain ⟨-, hnil⟩ := append_cons_inj (colon_notMem_of_isContentType h)
    (colon_notMem_of_isContentType hname') heq
  exact hvalue hnil.symm

/-- In a block of ended lines with one line for `Content-Type`, whose value has a type, the type is
found exactly if it is one of the first three, and the third string is not at the start. -/
theorem contentType_parse_iff (t : ContentTypes) {headers name value : Str}
    {before after : List Str} {ct : ContentType}
    (hlines : headers.splitOnP isSeparator
      = before ++ (name ++ Byte.colon :: value) :: after ++ [[]])
    (hname : IsContentType name) (hbefore : ∀ l ∈ before, ¬IsContentTypeLine l)
    (hafter : ∀ l ∈ after, ¬IsContentTypeLine l) (htype : HasType value ct) :
    (∀ r, (parseHttpHeaders t headers r).contentType = t.value ct) ↔
      ct = .textHtml ∨ ct = .textPlain ∨
        ct = .xhtml ∧ ¬lit "application/xhtml+xml" <+: value := by
  have hother : ∀ {l}, ¬IsContentTypeLine l → ¬IsContentTypeHeader l :=
    fun hl ⟨n, v, hn, _, heq⟩ => hl ⟨n, v, hn, heq⟩
  have hparse : ∀ r, (parseHttpHeaders t headers r).contentType
      = ((before.foldl (readHeader t) r).readHeader t
          (name ++ Byte.colon :: value)).contentType := by
    intro r
    rw [parseHttpHeaders_eq, lines_of_splitOnP hlines, List.foldl_append, List.foldl_cons,
      contentType_foldl_of_not t _ fun l hl => hother (hafter l hl)]
  by_cases hvalue : value = []
  · -- the line is not read, and the type stays as it was
    subst hvalue
    have hkeep : ∀ r, (parseHttpHeaders t headers r).contentType = r.contentType := by
      intro r
      rw [hparse, contentType_readHeader_of_not t _ (not_isContentTypeHeader_nil hname),
        contentType_foldl_of_not t _ fun l hl => hother (hbefore l hl)]
    have hnone : contained [] = [] := by decide
    obtain rfl : ct = .unrecognized := by
      rcases htype with htype | ⟨-, htype⟩
      · rw [hnone] at htype
        exact absurd htype (by simp)
      · exact htype
    refine iff_of_false (fun hall => ?_) (by simp)
    have hval := (hkeep { contentType := t.value .textHtml }).symm.trans (hall _)
    exact absurd (t.injective hval) (by decide)
  · have hfound : ∀ r, (parseHttpHeaders t headers r).contentType = t.value (classify value) := by
      intro r
      rw [hparse, contentType_readHeader t _ (headerMatch_contentType hname hvalue),
        if_pos (isContentType_iff.2 hname)]
    rw [← classify_eq_iff htype]
    constructor
    · intro hall
      exact t.injective ((hfound { contentType := 0 }).symm.trans (hall _))
    · rintro rfl r
      exact hfound r

/-- Consecutive values for the enumerators. -/
def consecutive : ContentTypes where
  value
    | .unrecognized => 1
    | .textHtml => 2
    | .textPlain => 3
    | .xhtml => 4
    | .applicationPdf => 5
    | .rssXml => 6
    | .atomXml => 7
  injective a b h := by
    cases a <;> cases b <;> first | rfl | exact absurd h (by decide)

/-- A name in upper case, and a value with a string in the middle. -/
theorem contentType_parse_iff_plain :
    IsContentType (lit "CONTENT-TYPE") ∧ ∀ r, (parseHttpHeaders consecutive
      (lit "HTTP/1.1 200 OK\r\nCONTENT-TYPE: text/plain; x\nAge: 1\n") r).contentType = 3 := by
  have hlines :
      (lit "HTTP/1.1 200 OK\r\nCONTENT-TYPE: text/plain; x\nAge: 1\n").splitOnP isSeparator
      = [lit "HTTP/1.1 200 OK", []] ++ (lit "CONTENT-TYPE" ++ Byte.colon :: lit " text/plain; x")
        :: [lit "Age: 1"] ++ [[]] := by
    decide
  refine ⟨by decide, (contentType_parse_iff consecutive hlines (by decide) (by decide) (by decide)
    (Or.inl ?_)).2 (Or.inr (Or.inl rfl))⟩
  decide

/-- Every value without the first three strings is taken for XHTML. -/
theorem not_contentType_parse_pdf :
    HasType (lit " application/pdf") .applicationPdf ∧
      (parseHttpHeaders consecutive (lit "Content-Type: application/pdf\r\n")
        { contentType := 0 }).contentType = consecutive.value .xhtml ∧
      consecutive.value .xhtml ≠ consecutive.value .applicationPdf := by
  refine ⟨Or.inl ?_, ?_, ?_⟩
  all_goals decide

/-- The type does not depend on the value that the output argument had exactly if some line is a
header for `Content-Type`. -/
theorem contentType_parse_unique_iff (t : ContentTypes) (headers : Str) :
    (∀ (r : ParsedHeaders) (c c' : Int32),
        (parseHttpHeaders t headers { r with contentType := c }).contentType
          = (parseHttpHeaders t headers { r with contentType := c' }).contentType) ↔
      ∃ l ∈ lines isSeparator headers, IsContentTypeHeader l := by
  simp only [parseHttpHeaders_eq]
  constructor
  · intro h
    by_contra hnone
    push Not at hnone
    have hkeep := h { contentType := 0 } 0 1
    rw [contentType_foldl_of_not t _ hnone, contentType_foldl_of_not t _ hnone] at hkeep
    exact absurd hkeep (by decide)
  · rintro ⟨l, hl, name, value, hname, hvalue, rfl⟩ r c c'
    obtain ⟨before, after, hsplit⟩ := List.append_of_mem hl
    have hmatch := headerMatch_contentType hname hvalue
    rw [hsplit, List.foldl_append, List.foldl_append, List.foldl_cons, List.foldl_cons]
    refine contentType_foldl_congr t ?_ after
    rw [contentType_readHeader t _ hmatch, contentType_readHeader t _ hmatch,
      if_pos (isContentType_iff.2 hname), if_pos (isContentType_iff.2 hname)]

/-- A response without `Content-Type` leaves the variable as it was. -/
theorem not_contentType_parse_unique :
    (parseHttpHeaders consecutive (lit "HTTP/1.1 200 OK\r\nAge: 1\r\n")
      { contentType := 0 }).contentType
      ≠ (parseHttpHeaders consecutive (lit "HTTP/1.1 200 OK\r\nAge: 1\r\n")
        { contentType := 2 }).contentType := by
  decide

/-! ### The map -/

/-- The two ends of a line. -/
inductive Eol where
  | lf | crlf
deriving DecidableEq, Repr

def Eol.text : Eol → Str
  | .lf => [0x0A]
  | .crlf => [0x0D, 0x0A]

/-- A name without the separators of `HEADER_RE` and the ends of lines. -/
def IsName (name : Str) : Prop :=
  name ≠ [] ∧ ∀ c ∈ name, isNameChar c = true ∧ isSeparator c = false

/-- A value on one line. -/
def IsValue (value : Str) : Prop := value ≠ [] ∧ ∀ c ∈ value, isSeparator c = false

instance (name : Str) : Decidable (IsName name) :=
  decidable_of_iff (!name.isEmpty && name.all fun c => isNameChar c && !isSeparator c)
    (by simp [IsName])

instance (value : Str) : Decidable (IsValue value) :=
  decidable_of_iff (!value.isEmpty && value.all fun c => !isSeparator c) (by simp [IsValue])

/-- A field with the end of its line. -/
structure Field where
  name : Str
  value : Str
  eol : Eol
  isName : IsName name
  isValue : IsValue value

namespace Field

/-- The field without the end of its line. -/
def line (f : Field) : Str := f.name ++ Byte.colon :: f.value

lemma not_separator (f : Field) : ∀ c ∈ f.line, isSeparator c = false := by
  intro c hc
  rcases List.mem_append.1 hc with hc | hc
  · exact (f.isName.2 c hc).2
  · rcases List.mem_cons.1 hc with rfl | hc
    · decide
    · exact f.isValue.2 c hc

lemma headerMatch (f : Field) : headerMatch f.line = some (f.name, f.value) :=
  headerMatch_eq_some_iff.2
    ⟨Regex.matches_plus_cls_iff.2 ⟨f.isName.1, fun c hc => (f.isName.2 c hc).1⟩,
      Regex.matches_plus_cls_iff.2 ⟨f.isValue.1, fun _ _ => rfl⟩, rfl⟩

end Field

/-- A block of headers: the status line and the fields. -/
def render (status : Str) (e : Eol) (fields : List Field) : Str :=
  status ++ e.text ++ fields.flatMap fun f => f.line ++ f.eol.text

/-- Enters the fields one after the other. -/
def insertAll (fields : List Field) (m : Finmap fun _ : Str => Str) : Finmap fun _ : Str => Str :=
  fields.foldl (fun m f => m.insert f.name f.value) m

/-- A line with either end is read as a line. -/
lemma foldl_lines_eol (t : ContentTypes) (r : ParsedHeaders) {l : Str}
    (hl : ∀ c ∈ l, isSeparator c = false) (e : Eol) (w : Str) :
    (lines isSeparator (l ++ e.text ++ w)).foldl (readHeader t) r
      = (lines isSeparator w).foldl (readHeader t) (r.readHeader t l) := by
  cases e with
  | lf =>
      rw [Eol.text, List.append_assoc, List.singleton_append, lines_append_cons hl (by decide)]
      rfl
  | crlf =>
      -- the line end leaves an empty line
      have hempty : lines isSeparator (0x0A :: w) = [] :: lines isSeparator w :=
        lines_append_cons (x := []) (by simp) (by decide)
      rw [Eol.text, List.append_assoc, List.cons_append, List.singleton_append,
        lines_append_cons hl (by decide), hempty]
      rfl

lemma headermap_foldl_fields (t : ContentTypes) (r : ParsedHeaders) (fields : List Field) :
    ((lines isSeparator (fields.flatMap fun f => f.line ++ f.eol.text)).foldl (readHeader t)
      r).headermap = insertAll fields r.headermap := by
  induction fields generalizing r with
  | nil => rfl
  | cons f fields ih =>
      rw [List.flatMap_cons, foldl_lines_eol t r f.not_separator, ih,
        headermap_readHeader t r f.headerMatch]
      rfl

/-- Parsing a printed block of headers gives the map of its fields, if the status line does not look
like a field. -/
theorem headermap_parse_render (t : ContentTypes) {status : Str} (e : Eol) (fields : List Field)
    (c : Int32) (charset : Str) (hstatus : ∀ c ∈ status, isSeparator c = false)
    (hform : ¬∃ name value, IsName name ∧ IsValue value ∧ status = name ++ Byte.colon :: value) :
    (parseHttpHeaders t (render status e fields)
      { contentType := c, charsetHttpHead := charset }).headermap = insertAll fields ∅ := by
  have hnone : headerMatch status = none := by
    by_contra hsome
    obtain ⟨⟨name, value⟩, hmatch⟩ := Option.ne_none_iff_exists'.1 hsome
    obtain ⟨hname, hvalue, rfl⟩ := headerMatch_eq_some_iff.1 hmatch
    rw [Regex.matches_plus_cls_iff] at hname hvalue
    have hfree : ∀ c, c ∈ name ∨ c ∈ value → isSeparator c = false := fun c hc =>
      hstatus c (List.mem_append.2 (hc.imp_right (List.mem_cons_of_mem _)))
    exact hform ⟨name, value, ⟨hname.1, fun c hc => ⟨hname.2 c hc, hfree c (Or.inl hc)⟩⟩,
      ⟨hvalue.1, fun c hc => hfree c (Or.inr hc)⟩, rfl⟩
  rw [parseHttpHeaders_eq, render, foldl_lines_eol t _ hstatus, readHeader_of_none t _ hnone]
  exact headermap_foldl_fields t _ fields

/-- The fields of a block: a name that is there twice, and values with colons. -/
def sampleFields : List Field :=
  [⟨lit "Url", lit " http://a:80/", .lf, by decide, by decide⟩,
    ⟨lit "Age", lit "1", .crlf, by decide, by decide⟩,
    ⟨lit "Url", lit ":", .crlf, by decide, by decide⟩]

theorem headermap_parse_render_sample :
    (parseHttpHeaders consecutive (render (lit "HTTP/1.1 200") .crlf sampleFields)
      { contentType := 0 }).headermap = insertAll sampleFields ∅ := by
  have hstatus : IsValue (lit "HTTP/1.1 200") := by decide
  refine headermap_parse_render consecutive .crlf sampleFields 0 [] hstatus.2 ?_
  rintro ⟨name, value, -, -, hstatus⟩
  have hcolon : Byte.colon ∈ lit "HTTP/1.1 200" := by
    rw [hstatus]
    simp
  exact absurd hcolon (by decide)

end ParsedHeaders

end Mycelium
