import Mathlib.Data.List.DropRight
import Mycelium.Common.Url
import Mycelium.Dist.ValidUtf8

/-!
# The local indexer

The indexer walks over the files of a directory, has the text of each PDF extracted by another
program, and saves a document for it.  The other program is arbitrary: it may give any bytes.  What
is saved is text in UTF-8 without control characters all the same, and text in UTF-8 is never turned
down.

The first file whose conversion fails ends the walk, and so does the first text file: its extension
is known, but no function converts it.
-/

namespace Mycelium

open LocalIndexer

namespace Indexer

/-- What `xcall` gives: `stdout`, `stderr` and the exit code of a program. -/
structure Result where
  out : Str
  err : Str
  res : ℤ
deriving DecidableEq

/-- The machine that the indexer runs on: `pdftotext`, `os.path.realpath` and `sys.argv[0]`. -/
structure Host where
  pdftotext : Str → Result
  realpath : Str → Str
  argv0 : Str

/-- The exceptions that leave the indexer. -/
inductive Raised where
  | url (e : Exn)
  | assertionError
  | keyError
  | indexError
deriving DecidableEq

/-- A document, with the fields that are set before it is saved. -/
structure Doc where
  url : Str
  content : Str
  flags : ℕ
  httpCode : ℕ
deriving DecidableEq

/-- The second part of `os.path.splitext`: from the last dot of the name, if something but dots is
in front of it. -/
def splitext (p : Str) : Str :=
  let name := p.rtakeWhile (· != Byte.slash)
  let root := (name.rdropWhile (· != 0x2E)).dropLast
  if root.any (· != 0x2E) then 0x2E :: name.rtakeWhile (· != 0x2E) else []

/-- `extension`. -/
def extension (fname : Str) : Str := splitext (fname.map toLower)

def knownExtensions : List Str := [lit ".pdf", lit ".txt"]

/-- `totext_pdf`. -/
def totextPdf (m : Host) (fname : Str) : Result :=
  let result := m.pdftotext fname
  if result.res ≠ 0 then result else { result with out := filterAsciiControlPy result.out }

def totextFns : List (Str × (Host → Str → Result)) := [(lit ".pdf", totextPdf)]

/-- `totext`. -/
def totext (m : Host) (fname : Str) : Except Raised Result :=
  match totextFns.lookup (extension fname) with
  | none => .error .keyError
  | some f =>
      let r := f m fname
      if r.res = 0 ∧ validUtf8 (.str r.out) = false then
        .ok ⟨[], r.err ++ m.argv0 ++ lit ": invalid utf-8 content", 1⟩
      else .ok r

/-- The expression `^file:///.+`. -/
def isFileUrl (url : Str) : Bool :=
  (lit "file:///").isPrefixOf url && ((url.drop 8).head?.any (· != 0x0A))

/-- `file`; the document that it saves, if any. -/
def file (m : Host) (fname : Str) : Except Raised (Option Doc) :=
  if extension fname ∉ knownExtensions then .ok none
  else do
    let url ← (Url.assign (lit "file://" ++ m.realpath fname)).mapError .url
    let url ← url.normalize.mapError .url
    if isFileUrl url.get = false then throw .assertionError
    else do
      let r ← totext m fname
      if r.res = 0 then
        return some { url := url.get, content := r.out, flags := 1, httpCode := 200 }
      -- The message has the field `1` and one argument, so that `format` raises in front of `save`.
      else throw .indexError

/-- `directory`, for the files that `os.walk` gives: the documents saved, and the exception. -/
def directory (m : Host) : List Str → List Doc × Option Raised
  | [] => ([], none)
  | fname :: fnames =>
      match file m fname with
      | .error e => ([], some e)
      | .ok doc =>
          let (docs, e) := directory m fnames
          (doc.toList ++ docs, e)

/-! ### One file -/

/-- The text of a document: encoded in UTF-8, and without control characters. -/
def IsText (s : Str) : Prop := ∃ cs : List Char, s = utf8 cs ∧ ∀ c ∈ cs, isControl c = false

lemma not_isControl_of_filter {s : Str} {cs : List Char} (h : filterAsciiControlPy s = utf8 cs)
    {c : Char} (hc : c ∈ cs) : isControl c = false := by
  -- The filter keeps all bytes of the code point, and would keep none if it were to be removed.
  have hkept : ∀ b ∈ String.utf8EncodeChar c, keepsPy b = true := by
    intro b hb
    have hmem : b ∈ filterAsciiControlPy s := h ▸ List.mem_flatMap.2 ⟨c, hc, hb⟩
    exact (List.mem_filter.1 hmem).2
  have hfilter := filterPy_utf8EncodeChar c
  rw [List.filter_eq_self.2 hkept] at hfilter
  by_contra hcontrol
  rw [Bool.not_eq_false] at hcontrol
  rw [if_pos hcontrol] at hfilter
  exact String.utf8EncodeChar_ne_nil hfilter

section

variable {m : Host} {fname : Str} {doc : Doc}

lemma res_totextPdf (m : Host) (fname : Str) :
    (totextPdf m fname).res = (m.pdftotext fname).res := by
  rw [totextPdf]
  split
  · rfl
  · rfl

lemma out_totextPdf (h : (m.pdftotext fname).res = 0) :
    (totextPdf m fname).out = filterAsciiControlPy (m.pdftotext fname).out := by
  rw [totextPdf, if_neg (by simp [h])]

lemma totext_of_pdf (h : extension fname = lit ".pdf") : totext m fname
    = .ok (if (totextPdf m fname).res = 0 ∧ validUtf8 (.str (totextPdf m fname).out) = false then
        ⟨[], (totextPdf m fname).err ++ m.argv0 ++ lit ": invalid utf-8 content", 1⟩
      else totextPdf m fname) := by
  have hlookup : totextFns.lookup (lit ".pdf") = some totextPdf := by simp [totextFns]
  rw [totext, h, hlookup]
  dsimp only
  split
  · rfl
  · rfl

lemma totext_of_ne (h : extension fname ≠ lit ".pdf") : totext m fname = .error .keyError := by
  have hlookup : totextFns.lookup (extension fname) = none := by
    simp [totextFns, List.lookup, beq_false_of_ne h]
  rw [totext, hlookup]

/-- What `totext` accepts is text. -/
lemma isText_of_totext {r : Result} (h : totext m fname = .ok r) (hres : r.res = 0) :
    IsText r.out := by
  by_cases hpdf : extension fname = lit ".pdf"
  · rw [totext_of_pdf hpdf, Except.ok.injEq] at h
    split at h
    · subst h
      exact absurd hres one_ne_zero
    · rename_i hvalid
      subst h
      have hout := out_totextPdf (res_totextPdf m fname ▸ hres)
      have haccepted : validUtf8 (.str (totextPdf m fname).out) = true := by
        simpa [hres] using hvalid
      obtain ⟨cs, hcs, -⟩ := validUtf8_iff_exists.1 haccepted
      exact ⟨cs, hcs, fun c hc => not_isControl_of_filter (hout ▸ hcs) hc⟩
  · rw [totext_of_ne hpdf] at h
    cases h

/-- Text in UTF-8 is accepted, and only its control characters are removed. -/
lemma totext_utf8 {cs : List Char} {err : Str} (hpdf : extension fname = lit ".pdf")
    (hout : m.pdftotext fname = ⟨utf8 cs, err, 0⟩) :
    totext m fname = .ok ⟨utf8 (cs.filter (!isControl ·)), err, 0⟩ := by
  have hfiltered : totextPdf m fname = ⟨filterAsciiControlPy (utf8 cs), err, 0⟩ := by
    rw [totextPdf, hout, if_neg (by simp)]
  rw [totext_of_pdf hpdf, hfiltered, validUtf8_filter, if_neg (by simp), filterAsciiControlPy,
    filter_utf8 filterPy_utf8EncodeChar]

/-- A document that is saved. -/
structure Saved (doc : Doc) : Prop where
  isText : IsText doc.content
  flags : doc.flags = 1
  httpCode : doc.httpCode = 200
  isFileUrl : isFileUrl doc.url = true

lemma mapError_eq_ok {ε ε' α : Type} {x : Except ε α} {g : ε → ε'} {a : α} :
    x.mapError g = .ok a ↔ x = .ok a := by
  cases x with
  | error e =>
      change Except.error (g e) = .ok a ↔ _
      simp
  | ok b =>
      change Except.ok b = .ok a ↔ _
      simp

/-- `file` of a known extension returns when each of its steps succeeds, and then it saves. -/
lemma file_eq_ok_iff (hknown : extension fname ∈ knownExtensions) {saved : Option Doc} :
    file m fname = .ok saved ↔ ∃ u v r, Url.assign (lit "file://" ++ m.realpath fname) = .ok u ∧
      u.normalize = .ok v ∧ isFileUrl v.get = true ∧ totext m fname = .ok r ∧ r.res = 0 ∧
      some ⟨v.get, r.out, 1, 200⟩ = saved := by
  rw [file, if_neg (not_not.2 hknown)]
  constructor
  · intro h
    obtain ⟨u, hassign, h⟩ := bind_eq_ok.1 h
    obtain ⟨v, hnormalize, h⟩ := bind_eq_ok.1 h
    rw [mapError_eq_ok] at hassign hnormalize
    by_cases hurl : isFileUrl v.get = true
    · rw [if_neg (by simp [hurl])] at h
      obtain ⟨r, htotext, h⟩ := bind_eq_ok.1 h
      by_cases hres : r.res = 0
      · rw [if_pos hres] at h
        exact ⟨u, v, r, hassign, hnormalize, hurl, htotext, hres, Except.ok.inj h⟩
      · rw [if_neg hres] at h
        cases h
    · rw [if_pos (by simpa using hurl)] at h
      cases h
  · rintro ⟨u, v, r, hassign, hnormalize, hurl, htotext, hres, rfl⟩
    refine bind_eq_ok.2 ⟨u, mapError_eq_ok.2 hassign, ?_⟩
    refine bind_eq_ok.2 ⟨v, mapError_eq_ok.2 hnormalize, ?_⟩
    rw [if_neg (by simp [hurl])]
    refine bind_eq_ok.2 ⟨r, htotext, ?_⟩
    rw [if_pos hres]
    rfl

lemma saved_of_file (h : file m fname = .ok (some doc)) : Saved doc := by
  by_cases hknown : extension fname ∈ knownExtensions
  · obtain ⟨u, v, r, -, -, hurl, hr, hres, hdoc⟩ := (file_eq_ok_iff hknown).1 h
    obtain rfl := Option.some.inj hdoc
    exact ⟨isText_of_totext hr hres, rfl, rfl, hurl⟩
  · rw [file, if_pos hknown] at h
    cases h

/-- A file of a known extension that is not converted raises. -/
lemma exists_error_of_totext (hknown : extension fname ∈ knownExtensions)
    (htotext : ∀ r, totext m fname = .ok r → r.res ≠ 0) : ∃ e, file m fname = .error e := by
  cases hfile : file m fname with
  | error e => exact ⟨e, rfl⟩
  | ok saved =>
      obtain ⟨u, v, r, -, -, -, hr, hres, -⟩ := (file_eq_ok_iff hknown).1 hfile
      exact absurd hres (htotext r hr)

/-- A PDF with text in UTF-8 is indexed, without its control characters. -/
theorem file_utf8 {cs : List Char} {err : Str} {u v : Url} (hpdf : extension fname = lit ".pdf")
    (hassign : Url.assign (lit "file://" ++ m.realpath fname) = .ok u)
    (hnormalize : u.normalize = .ok v) (hurl : isFileUrl v.get = true)
    (hout : m.pdftotext fname = ⟨utf8 cs, err, 0⟩) :
    file m fname = .ok (some ⟨v.get, utf8 (cs.filter (!isControl ·)), 1, 200⟩) := by
  have hknown : extension fname ∈ knownExtensions := by simp [hpdf, knownExtensions]
  rw [file_eq_ok_iff hknown]
  exact ⟨u, v, _, hassign, hnormalize, hurl, totext_utf8 hpdf hout, rfl, rfl⟩

end

/-! ### The walk -/

section

variable {m : Host} {fname : Str} {fnames before behind : List Str}

/-- Whatever the conversion of the files gives, every document saved is text. -/
theorem saved_of_mem_directory {doc : Doc} (h : doc ∈ (directory m fnames).1) : Saved doc := by
  induction fnames with
  | nil => cases h
  | cons fname fnames ih =>
      rw [directory] at h
      cases hfile : file m fname with
      | error e =>
          rw [hfile] at h
          cases h
      | ok saved =>
          rw [hfile] at h
          rcases List.mem_append.1 h with h | h
          · obtain rfl := Option.mem_toList.1 h
            exact saved_of_file hfile
          · exact ih h

/-- The files behind one that raises are not looked at. -/
lemma directory_of_error {e : Raised} (h : file m fname = .error e) :
    (directory m (before ++ fname :: behind)).1 = (directory m before).1 ∧
      (directory m (before ++ fname :: behind)).2.isSome := by
  induction before with
  | nil => simp [directory, h]
  | cons f before ih =>
      rw [List.cons_append, directory, directory]
      cases file m f with
      | error e => exact ⟨rfl, rfl⟩
      | ok saved => exact ⟨congrArg (saved.toList ++ ·) ih.1, ih.2⟩

/-- The walk ends at a file of a known extension that is not converted. -/
theorem directory_of_totext (hknown : extension fname ∈ knownExtensions)
    (htotext : ∀ r, totext m fname = .ok r → r.res ≠ 0) :
    (directory m (before ++ fname :: behind)).1 = (directory m before).1 ∧
      (directory m (before ++ fname :: behind)).2.isSome := by
  obtain ⟨e, he⟩ := exists_error_of_totext hknown htotext
  exact directory_of_error he

/-- The walk ends at a text file. -/
theorem directory_of_txt (htxt : extension fname = lit ".txt") :
    (directory m (before ++ fname :: behind)).1 = (directory m before).1 ∧
      (directory m (before ++ fname :: behind)).2.isSome := by
  have hne : extension fname ≠ lit ".pdf" := by
    rw [htxt]
    decide
  refine directory_of_totext (by simp [htxt, knownExtensions]) fun r hr => ?_
  rw [totext_of_ne hne] at hr
  cases hr

example : extension (lit "/tmp/a.b/Notes.TXT") = lit ".txt" := by decide

end

end Indexer

end Mycelium
