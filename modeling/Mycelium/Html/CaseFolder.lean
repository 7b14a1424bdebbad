import Mycelium.Common.Utf16

/-!
# Case folding

`Case_folder::fold_case_utf8` converts a text to UTF-16, folds it, and converts it back.  Each of
the three steps calls the library for Unicode with a buffer whose size it has guessed, and calls it
again with a larger one when the library reports an overflow.

The converters go on where they have stopped, and their loops reset the status before each call.
The loop around `u_strFoldCase` does not: the second call finds the error of the first one and
returns at once.  So a text is folded when the guess is right the first time, that is, when the
folded text is no longer than six fifths of the original one, and is an exception otherwise.
-/

namespace Mycelium

namespace CaseFolder

/-! ### The library -/

/-- `UErrorCode`, as far as the folder tells the codes apart. -/
inductive UErrorCode where
  | zeroError
  | stringNotTerminatedWarning
  | bufferOverflowError
  /-- Another error. -/
  | other (name : Str)
deriving DecidableEq, Repr

/-- `U_SUCCESS`; a warning is no error. -/
def UErrorCode.success : UErrorCode → Bool
  | .zeroError | .stringNotTerminatedWarning => true
  | .bufferOverflowError | .other _ => false

/-- `u_errorName`. -/
def UErrorCode.errorName : UErrorCode → Str
  | .zeroError => lit "U_ZERO_ERROR"
  | .stringNotTerminatedWarning => lit "U_STRING_NOT_TERMINATED_WARNING"
  | .bufferOverflowError => lit "U_BUFFER_OVERFLOW_ERROR"
  | .other name => name

/-- What comes of a call of a converter: what it has written, the source that it has not read, and
the status. -/
structure Converted (Conv α β : Type) where
  conv : Conv
  written : List β
  rest : List α
  status : UErrorCode

/-- A converter from `α` to `β`, called with the capacity of the target and the source. -/
abbrev Convert (Conv α β : Type) := Conv → ℕ → List α → UErrorCode → Converted Conv α β

/-- A converter resumes after an overflow.  `Owes conv src u` says that the converter is to write
`u` when it is given `src`; `Idle` is a converter that has no text in it. -/
structure Resumes {Conv α β : Type} (convert : Convert Conv α β) (Idle : Conv → Prop)
    (Owes : Conv → List α → List β → Prop) : Prop where
  fits : ∀ {conv capacity src u}, Owes conv src u → u.length ≤ capacity →
    ∃ conv' rest, convert conv capacity src .zeroError = ⟨conv', u, rest, .zeroError⟩ ∧ Idle conv'
  overflows : ∀ {conv capacity src u}, Owes conv src u → capacity < u.length →
    ∃ conv' rest, convert conv capacity src .zeroError
        = ⟨conv', u.take capacity, rest, .bufferOverflowError⟩ ∧
      Owes conv' rest (u.drop capacity)

/-- What comes of a call of `u_strFoldCase`. -/
structure Folded where
  len : ℤ
  written : List UInt16
  status : UErrorCode

/-- The library, with its contract. -/
structure Library where
  Conv : Type
  /-- `ucnv_toUnicode`. -/
  toUnicode : Convert Conv UInt8 UInt16
  /-- `ucnv_fromUnicode`. -/
  fromUnicode : Convert Conv UInt16 UInt8
  /-- `u_strFoldCase`, called with the capacity of the target, the source and its length. -/
  strFoldCase : ℤ → List UInt16 → ℤ → UErrorCode → Folded
  /-- The full case folding of a code point. -/
  fold : Char → List Char
  Idle : Conv → Prop
  Reads : Conv → List UInt8 → List UInt16 → Prop
  Writes : Conv → List UInt16 → List UInt8 → Prop
  toUnicode_resumes : Resumes toUnicode Idle Reads
  fromUnicode_resumes : Resumes fromUnicode Idle Writes
  reads : ∀ {conv} cs, Idle conv → Reads conv (utf8 cs) (utf16 cs)
  writes : ∀ {conv} cs, Idle conv → Writes conv (utf16 cs) (utf8 cs)
  strFoldCase_fits : ∀ {capacity : ℕ} {cs : List Char} {status : UErrorCode},
    status.success = true → (utf16 (cs.flatMap fold)).length ≤ capacity →
    ∃ status', strFoldCase capacity (utf16 cs) (utf16 cs).length status
        = ⟨(utf16 (cs.flatMap fold)).length, utf16 (cs.flatMap fold), status'⟩ ∧
      status'.success = true
  strFoldCase_overflows : ∀ {capacity : ℕ} {cs : List Char} {status : UErrorCode},
    status.success = true → capacity < (utf16 (cs.flatMap fold)).length →
    ∃ written, strFoldCase capacity (utf16 cs) (utf16 cs).length status
      = ⟨(utf16 (cs.flatMap fold)).length, written, .bufferOverflowError⟩
  strFoldCase_failed : ∀ {status : UErrorCode} capacity src srcLength,
    status.success = false → strFoldCase capacity src srcLength status = ⟨0, [], status⟩

/-! ### The folder -/

/-- What comes of a call: a result or an exception, and the converter. -/
abbrev Result (Conv α : Type) := Except Exn α × Conv

/-- The loops around `ucnv_toUnicode` and `ucnv_fromUnicode`; `done` is what the buffer holds, and
`size` is the size of the buffer.  The result is `none` when the loop takes more turns than the
number says. -/
def convertLoop {Conv α β : Type} (convert : Convert Conv α β) :
    ℕ → ℕ → List β → List α → Conv → Option (Result Conv (List β))
  | 0, _, _, _, _ => none
  | fuel + 1, size, done, src, conv =>
      let r := convert conv (size - done.length) src .zeroError
      let done := done ++ r.written
      if r.status = .bufferOverflowError then
        convertLoop convert fuel ((size + 1) * 2) done r.rest r.conv
      else if r.status.success then some (.ok done, r.conv)
      else some (.error (.runtimeError r.status.errorName), r.conv)

/-- An `int32_t` that is given a `size_t`. -/
def toInt32 (n : ℕ) : ℤ := Int.bmod n (2 ^ 32)

/-- `folded_str.resize(len)`. -/
def resize (l : List UInt16) (len : ℕ) : List UInt16 :=
  l.take len ++ List.replicate (len - l.length) 0

/-- The loop around `u_strFoldCase`; `size` is the size of `folded_str`. -/
def foldLoop (lib : Library) (uBuff : List UInt16) :
    ℕ → ℕ → UErrorCode → Option (Except Exn (List UInt16))
  | 0, _, _ => none
  | fuel + 1, size, status =>
      let r := lib.strFoldCase (toInt32 size) uBuff (toInt32 uBuff.length) status
      let len := (r.len % 2 ^ 32).toNat
      if len > size ∧ r.status = .bufferOverflowError then
        -- the status is not reset
        foldLoop lib uBuff fuel len r.status
      else if r.status.success then some (.ok (resize r.written len))
      else some (.error (.runtimeError (lit "u_strFoldCase error:" ++ r.status.errorName)))

/-- `u_buff.size() * 1.2`, as a size.  In double precision the product is rounded to an integer
where it is one, and cut where it is not, for all sizes of an `int32_t`. -/
def foldedSize (n : ℕ) : ℕ := n * 6 / 5

/-- What `fold_case_utf8` does with the code units of its input; `size` is the size of `o_buff`. -/
def foldUnits (lib : Library) (fuel size : ℕ) (uBuff : List UInt16) (conv : lib.Conv) :
    Option (Result lib.Conv Str) := do
  let folded ← foldLoop lib uBuff fuel (foldedSize uBuff.length) .zeroError
  match folded with
  | .error e => some (.error e, conv)
  | .ok folded => convertLoop lib.fromUnicode fuel size [] folded conv

/-- `Case_folder::fold_case_utf8`. -/
def foldCaseUtf8 (lib : Library) (fuel : ℕ) (conv : lib.Conv) (input : Str) :
    Option (Result lib.Conv Str) :=
  if input = [] then some (.ok [], conv)
  else do
    let (uBuff, conv) ← convertLoop lib.toUnicode fuel input.length [] input conv
    match uBuff with
    | .error e => some (.error e, conv)
    | .ok uBuff => foldUnits lib fuel input.length uBuff conv

/-! ### The loops -/

/-- The loop of a converter writes all that it owes. -/
lemma convertLoop_eq {Conv α β : Type} {convert : Convert Conv α β} {Idle : Conv → Prop}
    {Owes : Conv → List α → List β → Prop} (h : Resumes convert Idle Owes) {fuel size : ℕ}
    {done u : List β} {src : List α} {conv : Conv} (howes : Owes conv src u)
    (hsize : done.length < size) (hfuel : u.length < fuel) :
    ∃ conv', convertLoop convert fuel size done src conv = some (.ok (done ++ u), conv') ∧
      Idle conv' := by
  induction fuel generalizing size done u src conv with
  | zero => exact absurd hfuel (Nat.not_lt_zero _)
  | succ fuel ih =>
      by_cases hfits : u.length ≤ size - done.length
      · obtain ⟨conv', rest, hcall, hidle⟩ := h.fits howes hfits
        refine ⟨conv', ?_, hidle⟩
        simp [convertLoop, hcall, UErrorCode.success]
      · obtain ⟨conv', rest, hcall, howes'⟩ := h.overflows howes (Nat.lt_of_not_le hfits)
        -- the buffer had room for one more, so that less is owed now
        have hdone : (done ++ u.take (size - done.length)).length < (size + 1) * 2 := by
          rw [List.length_append, List.length_take]
          omega
        have hless : (u.drop (size - done.length)).length < fuel := by
          rw [List.length_drop]
          omega
        obtain ⟨conv'', hloop, hidle⟩ := ih howes' hdone hless
        refine ⟨conv'', ?_, hidle⟩
        rw [List.append_assoc, List.take_append_drop] at hloop
        simpa [convertLoop, hcall] using hloop

lemma toInt32_eq {n : ℕ} (h : n < 2 ^ 31) : toInt32 n = n :=
  Int.bmod_eq_of_le (by omega) (by norm_num; omega)

section

variable {lib : Library} {cs : List Char} {size fuel : ℕ}

/-- The first call of `u_strFoldCase` has room for the folded text. -/
lemma foldLoop_fits (hsize : size < 2 ^ 31) (hsrc : (utf16 cs).length < 2 ^ 31)
    (hfits : (utf16 (cs.flatMap lib.fold)).length ≤ size) :
    foldLoop lib (utf16 cs) (fuel + 1) size .zeroError
      = some (.ok (utf16 (cs.flatMap lib.fold))) := by
  have hzero : UErrorCode.zeroError.success = true := rfl
  obtain ⟨status', hcall, hsuccess⟩ := lib.strFoldCase_fits hzero hfits
  have hlen : (((utf16 (cs.flatMap lib.fold)).length : ℤ) % 2 ^ 32).toNat
      = (utf16 (cs.flatMap lib.fold)).length := by omega
  rw [foldLoop, toInt32_eq hsize, toInt32_eq hsrc, hcall]
  simp only [hlen]
  rw [if_neg (fun h => absurd h.1 (Nat.not_lt.2 hfits)), if_pos hsuccess]
  simp [resize]

/-- The second call of `u_strFoldCase` returns at once. -/
lemma foldLoop_overflows (hsize : size < 2 ^ 31) (hsrc : (utf16 cs).length < 2 ^ 31)
    (hlen : (utf16 (cs.flatMap lib.fold)).length < 2 ^ 31)
    (hover : size < (utf16 (cs.flatMap lib.fold)).length) :
    foldLoop lib (utf16 cs) (fuel + 2) size .zeroError
      = some (.error (.runtimeError (lit "u_strFoldCase error:U_BUFFER_OVERFLOW_ERROR"))) := by
  have hzero : UErrorCode.zeroError.success = true := rfl
  obtain ⟨written, hcall⟩ := lib.strFoldCase_overflows hzero hover
  have hmod : (((utf16 (cs.flatMap lib.fold)).length : ℤ) % 2 ^ 32).toNat
      = (utf16 (cs.flatMap lib.fold)).length := by omega
  rw [foldLoop, toInt32_eq hsize, toInt32_eq hsrc, hcall]
  simp only [hmod, and_true]
  rw [if_pos hover, foldLoop, lib.strFoldCase_failed _ _ _ rfl]
  rfl

end

/-! ### A text -/

section

variable {lib : Library} {fuel : ℕ} {conv : lib.Conv} {cs : List Char}

lemma utf8_ne_nil (hcs : cs ≠ []) : utf8 cs ≠ [] := by
  obtain ⟨c, cs, rfl⟩ := List.exists_cons_of_ne_nil hcs
  simp [String.utf8EncodeChar_ne_nil]

/-- The text is converted to UTF-16, and what follows is done to its code units. -/
lemma foldCaseUtf8_of_ne_nil (hidle : lib.Idle conv) (hcs : cs ≠ [])
    (hfuel : (utf8 cs).length < fuel) :
    ∃ conv', lib.Idle conv' ∧ foldCaseUtf8 lib fuel conv (utf8 cs)
      = foldUnits lib fuel (utf8 cs).length (utf16 cs) conv' := by
  have hne := utf8_ne_nil hcs
  have hunits := length_utf16_le cs
  obtain ⟨conv', hread, hidle'⟩ :
      ∃ conv', convertLoop lib.toUnicode fuel (utf8 cs).length [] (utf8 cs) conv
        = some (.ok ([] ++ utf16 cs), conv') ∧ lib.Idle conv' :=
    convertLoop_eq lib.toUnicode_resumes (lib.reads cs hidle) (List.length_pos_iff.2 hne) (by omega)
  refine ⟨conv', hidle', ?_⟩
  simp only [foldCaseUtf8, if_neg hne, hread, List.nil_append, Option.bind_eq_bind,
    Option.bind_some]

lemma foldCaseUtf8_fits (hidle : lib.Idle conv) (hsize : (utf16 cs).length * 6 / 5 < 2 ^ 31)
    (hfits : (utf16 (cs.flatMap lib.fold)).length ≤ (utf16 cs).length * 6 / 5)
    (hfuel : (utf8 cs).length + (utf8 (cs.flatMap lib.fold)).length < fuel) :
    ∃ conv', lib.Idle conv' ∧
      foldCaseUtf8 lib fuel conv (utf8 cs) = some (.ok (utf8 (cs.flatMap lib.fold)), conv') := by
  by_cases hcs : cs = []
  · subst hcs
    exact ⟨conv, hidle, rfl⟩
  obtain ⟨conv₁, hidle₁, hfold⟩ :=
    foldCaseUtf8_of_ne_nil hidle hcs (Nat.lt_of_le_of_lt (Nat.le_add_right _ _) hfuel)
  obtain ⟨conv₂, hwrite, hidle₂⟩ :
      ∃ conv', convertLoop lib.fromUnicode fuel (utf8 cs).length []
          (utf16 (cs.flatMap lib.fold)) conv₁
        = some (.ok ([] ++ utf8 (cs.flatMap lib.fold)), conv') ∧ lib.Idle conv' :=
    convertLoop_eq lib.fromUnicode_resumes (lib.writes _ hidle₁)
      (List.length_pos_iff.2 (utf8_ne_nil hcs)) (by omega)
  refine ⟨conv₂, hidle₂, ?_⟩
  obtain ⟨k, rfl⟩ : ∃ k, fuel = k + 1 := ⟨fuel - 1, by omega⟩
  rw [hfold, foldUnits, foldedSize, foldLoop_fits hsize (by omega) hfits]
  exact hwrite

lemma foldCaseUtf8_overflows (hidle : lib.Idle conv) (hsize : (utf16 cs).length * 6 / 5 < 2 ^ 31)
    (hlen : (utf16 (cs.flatMap lib.fold)).length < 2 ^ 31)
    (hover : (utf16 cs).length * 6 / 5 < (utf16 (cs.flatMap lib.fold)).length)
    (hfuel : (utf8 cs).length + 1 < fuel) :
    ∃ conv', lib.Idle conv' ∧ foldCaseUtf8 lib fuel conv (utf8 cs)
      = some (.error (.runtimeError (lit "u_strFoldCase error:U_BUFFER_OVERFLOW_ERROR")),
        conv') := by
  have hcs : cs ≠ [] := by
    rintro rfl
    exact absurd hover (by simp)
  obtain ⟨conv', hidle', hfold⟩ :=
    foldCaseUtf8_of_ne_nil hidle hcs (Nat.lt_of_le_of_lt (Nat.le_add_right _ _) hfuel)
  refine ⟨conv', hidle', ?_⟩
  obtain ⟨k, rfl⟩ : ∃ k, fuel = k + 2 := ⟨fuel - 2, by omega⟩
  rw [hfold, foldUnits, foldedSize, foldLoop_overflows hsize (by omega) hlen hover]
  rfl

end

/-! ### A library -/

section

variable {Conv α β : Type}

/-- A converter that reads the whole source at once and keeps what it cannot write. -/
def eager (pending : Conv → List β) (keep : List β → Conv) (decode : List α → List β) :
    Convert Conv α β := fun conv capacity src status =>
  let u := pending conv ++ decode src
  { conv := keep (u.drop capacity)
    written := u.take capacity
    rest := []
    status := if u.length ≤ capacity then status else .bufferOverflowError }

lemma eager_resumes {pending : Conv → List β} {keep : List β → Conv} {decode : List α → List β}
    {Idle : Conv → Prop} (hkeep : ∀ u, pending (keep u) = u) (hdecode : decode [] = [])
    (hidle : Idle (keep [])) :
    Resumes (eager pending keep decode) Idle fun conv src u => pending conv ++ decode src = u where
  fits := by
    rintro conv capacity src _ rfl hfits
    refine ⟨keep [], [], ?_, hidle⟩
    simp only [eager, List.drop_of_length_le hfits, List.take_of_length_le hfits, if_pos hfits]
  overflows := by
    rintro conv capacity src _ rfl hover
    refine ⟨keep ((pending conv ++ decode src).drop capacity), [], ?_, ?_⟩
    · simp only [eager, if_neg (Nat.not_le.2 hover)]
    · rw [hkeep, hdecode, List.append_nil]

end

/-- The code units that a converter has kept. -/
def keptUnits : List UInt16 ⊕ List UInt8 → List UInt16 := Sum.elim id fun _ => []

/-- The bytes that a converter has kept. -/
def keptBytes : List UInt16 ⊕ List UInt8 → List UInt8 := Sum.elim (fun _ => []) id

/-- A library whose converters are `eager`, with the given folding. -/
def Library.ofFold (fold : Char → List Char) : Library where
  Conv := List UInt16 ⊕ List UInt8
  toUnicode := eager keptUnits Sum.inl fun src => utf16 (decodeUtf8 src)
  fromUnicode := eager keptBytes Sum.inr fun src => utf8 (decodeUtf16 src)
  strFoldCase capacity src _ status :=
    if status.success then
      let folded := utf16 ((decodeUtf16 src).flatMap fold)
      if folded.length ≤ capacity then ⟨folded.length, folded, status⟩
      else ⟨folded.length, [], .bufferOverflowError⟩
    else ⟨0, [], status⟩
  fold := fold
  Idle conv := keptUnits conv = [] ∧ keptBytes conv = []
  Reads conv src u := keptUnits conv ++ utf16 (decodeUtf8 src) = u
  Writes conv src u := keptBytes conv ++ utf8 (decodeUtf16 src) = u
  toUnicode_resumes := eager_resumes (fun _ => rfl) (congrArg utf16 (decodeUtf8_utf8 [])) ⟨rfl, rfl⟩
  fromUnicode_resumes := eager_resumes (fun _ => rfl) rfl ⟨rfl, rfl⟩
  reads cs hidle := by rw [hidle.1, decodeUtf8_utf8, List.nil_append]
  writes cs hidle := by rw [hidle.2, decodeUtf16_utf16, List.nil_append]
  strFoldCase_fits {capacity cs status} hsuccess hfits := by
    refine ⟨status, ?_, hsuccess⟩
    simp only [hsuccess, if_true, decodeUtf16_utf16, Nat.cast_le, hfits]
  strFoldCase_overflows hsuccess hover := by
    refine ⟨[], ?_⟩
    simp only [hsuccess, if_true, decodeUtf16_utf16, Nat.cast_le, Nat.not_le.2 hover, if_false]
  strFoldCase_failed capacity src srcLength hfailed := by
    simp only [hfailed, Bool.false_eq_true, if_false]

/-- The folding of `A` and of the sharp s, which has two letters. -/
def foldSharp (c : Char) : List Char :=
  if c = 'A' then ['a'] else if c = 'ß' then ['s', 's'] else [c]

/-- The folder folds a text when the first guess of the size is large enough, and throws otherwise.
In both cases the converter is ready for the next text. -/
theorem foldCaseUtf8_eq {lib : Library} {fuel : ℕ} {conv : lib.Conv} (cs : List Char)
    (hidle : lib.Idle conv) (hsize : (utf16 cs).length * 6 / 5 < 2 ^ 31)
    (hlen : (utf16 (cs.flatMap lib.fold)).length < 2 ^ 31)
    (hfuel : (utf8 cs).length + (utf8 (cs.flatMap lib.fold)).length + 1 < fuel) :
    ∃ conv', lib.Idle conv' ∧ foldCaseUtf8 lib fuel conv (utf8 cs) = some
      (if (utf16 (cs.flatMap lib.fold)).length ≤ (utf16 cs).length * 6 / 5 then
        .ok (utf8 (cs.flatMap lib.fold))
      else .error (.runtimeError (lit "u_strFoldCase error:U_BUFFER_OVERFLOW_ERROR")), conv') := by
  split
  · next hfits => exact foldCaseUtf8_fits hidle hsize hfits (by omega)
  · next hover => exact foldCaseUtf8_overflows hidle hsize hlen (Nat.lt_of_not_le hover) (by omega)

theorem foldCaseUtf8_letter :
    ∃ conv', (Library.ofFold foldSharp).Idle conv' ∧
      foldCaseUtf8 (Library.ofFold foldSharp) 4 (.inl []) (utf8 ['A'])
        = some (.ok (utf8 ['a']), conv') :=
  foldCaseUtf8_eq ['A'] ⟨rfl, rfl⟩ (by decide) (by decide) (by decide)

/-- The folder throws on a text of one sharp s. -/
theorem not_foldCaseUtf8_sharp :
    ['ß'].flatMap foldSharp = ['s', 's'] ∧
      ∃ conv', (Library.ofFold foldSharp).Idle conv' ∧
        foldCaseUtf8 (Library.ofFold foldSharp) 6 (.inl []) (utf8 ['ß'])
          = some (.error (.runtimeError (lit "u_strFoldCase error:U_BUFFER_OVERFLOW_ERROR")),
            conv') :=
  ⟨rfl, foldCaseUtf8_overflows ⟨rfl, rfl⟩ (by decide) (by decide) (by decide) (by decide)⟩

end CaseFolder

end Mycelium
