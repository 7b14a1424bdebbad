import Mycelium.Common.Bytes

/-!
# Percent-encoding

`Url::escape`, the four decoders and `Url::normalize_escapes`, with the table of character
flags they consult.  The functions walk over the string with one iterator that looks two
characters ahead for the hexadecimal digits of an escape.

What they have in common is how they cut a string: a `%` followed by two hexadecimal digits is
one unit, every other byte is a unit of its own.  `tokens` is that cut.  Each function maps the
tokens of its argument one by one, and the rest of the file works with tokens only.
-/

namespace Mycelium

/-! ### The table of character flags -/

def urlCharReserved : UInt8 := 0x1
def urlCharUnsafe : UInt8 := 0x2
def urlCharEsc : UInt8 := 0x4
def urlCharAuth : UInt8 := 0x8
def urlCharPath : UInt8 := 0x10
def urlCharQuery : UInt8 := 0x20
def urlCharFragment : UInt8 := 0x40

/-- `url_char_table`.  The abbreviations are those of the source: `RU` is `R|U`, and `X` is
`U|E|A|P|Q|F`. -/
def urlCharTable : List UInt8 :=
  let R := urlCharReserved
  let U := urlCharUnsafe
  let A := urlCharAuth
  let P := urlCharPath
  let Q := urlCharQuery
  let RU := R ||| U
  let X := U ||| urlCharEsc ||| A ||| P ||| Q ||| urlCharFragment
  [ X,  X,  X,  X,   X,  X,  X,  X,
    X,  X,  X,  X,   X,  X,  X,  X,
    X,  X,  X,  X,   X,  X,  X,  X,
    X,  X,  X,  X,   X,  X,  X,  X,
    X,  0,  X,  RU ||| A ||| P ||| Q, R, X, R, 0,   -- SP ! " #   $ % & '
    0,  0,  0,  R,   R,  0,  0,  R ||| A,           -- (  ) * +   , - . /
    0,  0,  0,  0,   0,  0,  0,  0,
    0,  0, RU,  R,   X,  R,  X,  R ||| A ||| P,     -- 8  9 : ;   < = > ?
   RU,  0,  0,  0,   0,  0,  0,  0,                 -- @
    0,  0,  0,  0,   0,  0,  0,  0,
    0,  0,  0,  0,   0,  0,  0,  0,
    0,  0,  0, RU,   X, RU,  X,  0,                 -- X  Y Z [   \ ] ^ _
    X,  0,  0,  0,   0,  0,  0,  0,                 -- the grave accent
    0,  0,  0,  0,   0,  0,  0,  0,
    0,  0,  0,  0,   0,  0,  0,  0,
    0,  0,  0,  X,   X,  X,  0,  X ]                -- x  y z {   | } ~ DEL
  ++ List.replicate 128 X

/-- The entry of a character in `url_char_table`. -/
def urlCharFlags (c : UInt8) : UInt8 := urlCharTable.getD c.toNat 0

/-- The macro `url_char_test`. -/
def urlCharTest (c mask : UInt8) : Bool := urlCharFlags c &&& mask != 0

/-! ### Encoding -/

/-- The escape of one character, as `Url::escape` writes it. -/
def pctEncode (c : UInt8) : Str := [Byte.percent, digitToXnum (c >>> 4), digitToXnum (c &&& 0xf)]

/-- `Url::escape`.  A flagged `%` that starts a valid escape is copied with its two digits. -/
def escape : Str → UInt8 → Str
  | c :: a :: b :: s, mask =>
      if urlCharTest c mask then
        if c == Byte.percent && isXDigit a && isXDigit b then c :: a :: b :: escape s mask
        else pctEncode c ++ escape (a :: b :: s) mask
      else c :: escape (a :: b :: s) mask
  | c :: s, mask => (if urlCharTest c mask then pctEncode c else [c]) ++ escape s mask
  | [], _ => []

/-- `Url::escape_reserved_unsafe`. -/
def escapeReservedUnsafe (s : Str) : Str := escape s (urlCharReserved ||| urlCharUnsafe)

/-! ### Decoding -/

/-- The loop of the four decoders, which differ in the decoded characters they accept.  The test
meant to keep NUL out compares the two digits with NUL and not with `'0'`. -/
def unescapeLoop (accept : UInt8 → Bool) : Str → Str
  | c :: a :: b :: s =>
      if c == Byte.percent && isXDigit a && isXDigit b && (a != 0 || b != 0) then
        if accept (x2digitsToNum a b) then x2digitsToNum a b :: unescapeLoop accept s
        else c :: unescapeLoop accept (a :: b :: s)
      else c :: unescapeLoop accept (a :: b :: s)
  | c :: s => c :: unescapeLoop accept s
  | [] => []

/-- The common frame of the four decoders: a string without `%` is returned as it is. -/
def unescapeIf (accept : UInt8 → Bool) (s : Str) : Str :=
  if s.isEmpty || !s.contains Byte.percent then s else unescapeLoop accept s

/-- `Url::unescape(s)`. -/
def unescape (s : Str) : Str := unescapeIf (fun _ => true) s

/-- `Url::unescape(s, mask)`. -/
def unescapeMask (s : Str) (mask : UInt8) : Str := unescapeIf (fun c => urlCharTest c mask) s

/-- `Url::unescape_not`. -/
def unescapeNot (s : Str) (mask : UInt8) : Str :=
  unescapeIf (fun c => urlCharFlags c &&& mask == 0) s

/-- The characters that `Url::unescape_safe` decodes: neither reserved nor unsafe. -/
def urlCharSafe (c : UInt8) : Bool := urlCharFlags c &&& (urlCharReserved ||| urlCharUnsafe) == 0

/-- `Url::unescape_safe`. -/
def unescapeSafe (s : Str) : Str := unescapeIf urlCharSafe s

/-- The second loop of `Url::normalize_escapes(s)`: the digits of escapes in upper case. -/
def upperEscapes : Str → Str
  | c :: a :: b :: s =>
      if c == Byte.percent && isXDigit a && isXDigit b then
        c :: toUpper a :: toUpper b :: upperEscapes s
      else c :: upperEscapes (a :: b :: s)
  | c :: s => c :: upperEscapes s
  | [] => []

/-- `Url::normalize_escapes(s)`, the static member. -/
def normalizeEscapes (s : Str) : Str := upperEscapes (unescapeSafe s)

/-! ### Tokens -/

/-- A unit of a percent-encoded string: a plain byte or an escape with its two digits. -/
inductive Tok where
  | raw (c : UInt8)
  | esc (a b : UInt8)
deriving DecidableEq, Repr

namespace Tok

/-- The text of a token. -/
def text : Tok → Str
  | raw c => [c]
  | esc a b => [Byte.percent, a, b]

/-- A token that is read back from its text whatever follows it. -/
def Closed : Tok → Prop
  | raw c => c ≠ Byte.percent
  | esc a b => isXDigit a = true ∧ isXDigit b = true

/-- What `Url::escape` writes for a token. -/
def escaped (mask : UInt8) : Tok → Str
  | raw c => if urlCharTest c mask then pctEncode c else [c]
  | esc a b => [Byte.percent, a, b]

/-- What the decoders write for a token. -/
def unescaped (accept : UInt8 → Bool) : Tok → Str
  | raw c => [c]
  | esc a b => if accept (x2digitsToNum a b) then [x2digitsToNum a b] else [Byte.percent, a, b]

/-- What the upper-casing loop writes for a token. -/
def upper : Tok → Tok
  | raw c => raw c
  | esc a b => esc (toUpper a) (toUpper b)

end Tok

/-- The cut of a string into tokens. -/
def tokens : Str → List Tok
  | c :: a :: b :: s =>
      if c == Byte.percent && isXDigit a && isXDigit b then .esc a b :: tokens s
      else .raw c :: tokens (a :: b :: s)
  | c :: s => .raw c :: tokens s
  | [] => []

/-- Every `%` starts an escape. -/
def Closed (s : Str) : Prop := ∀ t ∈ tokens s, t.Closed

lemma isXDigit_ne_zero {a : UInt8} (h : isXDigit a = true) : (a != 0) = true := by
  rw [bne_iff_ne]
  rintro rfl
  exact absurd h (by decide)

lemma isXDigit_ne_percent {a : UInt8} (h : isXDigit a = true) : a ≠ Byte.percent := by
  rintro rfl
  exact absurd h (by decide)

/-- In the table, a hexadecimal digit and a character that is neither reserved nor unsafe have no
flag at all. -/
lemma urlCharFlags_eq_zero (c : UInt8) :
    isXDigit c = true ∨ urlCharSafe c = true → urlCharFlags c = 0 := by
  revert c
  apply Byte.forall_of_lt
  decide +kernel

/-- No mask flags a hexadecimal digit. -/
lemma urlCharTest_of_isXDigit {a : UInt8} (h : isXDigit a = true) (mask : UInt8) :
    urlCharTest a mask = false := by
  have hflags := urlCharFlags_eq_zero a (Or.inl h)
  simp [urlCharTest, hflags]

/-- A byte that is never part of an escape. -/
structure Outside (d : UInt8) : Prop where
  ne_percent : d ≠ Byte.percent
  not_xdigit : isXDigit d = false

/-- A byte that is never part of an escape and that `Url::unescape_safe` does not decode. -/
structure Delim (d : UInt8) : Prop extends Outside d where
  not_safe : urlCharSafe d = false

lemma delim_slash : Delim Byte.slash := ⟨⟨by decide, by decide⟩, by decide⟩
lemma delim_colon : Delim Byte.colon := ⟨⟨by decide, by decide⟩, by decide⟩
lemma delim_atSign : Delim Byte.atSign := ⟨⟨by decide, by decide⟩, by decide⟩
lemma delim_question : Delim Byte.question := ⟨⟨by decide, by decide⟩, by decide⟩
lemma delim_hash : Delim Byte.hash := ⟨⟨by decide, by decide⟩, by decide⟩

/-! ### The functions on tokens -/

@[simp] lemma tokens_nil : tokens [] = [] := rfl

lemma tokens_esc {a b : UInt8} (ha : isXDigit a = true) (hb : isXDigit b = true) (s : Str) :
    tokens (Byte.percent :: a :: b :: s) = .esc a b :: tokens s := by
  simp [tokens, ha, hb]

lemma tokens_raw {c : UInt8} (hc : c ≠ Byte.percent) (s : Str) :
    tokens (c :: s) = .raw c :: tokens s := by
  match s with
  | [] => rfl
  | [_] => rfl
  | a :: b :: s => simp [tokens, hc]

lemma text_tokens (s : Str) : (tokens s).flatMap Tok.text = s := by
  fun_induction tokens s with
  | case1 c a b s h ih =>
      simp only [Bool.and_eq_true, beq_iff_eq] at h
      simp [Tok.text, ih, h.1.1]
  | case2 c a b s h ih => simp [Tok.text, ih]
  | case3 c s h ih => simp [Tok.text, ih]
  | case4 => rfl

lemma escape_eq_flatMap (s : Str) (mask : UInt8) :
    escape s mask = (tokens s).flatMap (Tok.escaped mask) := by
  fun_induction tokens s with
  | case1 c a b s h ih =>
      simp only [Bool.and_eq_true, beq_iff_eq] at h
      obtain ⟨⟨rfl, ha⟩, hb⟩ := h
      by_cases ht : urlCharTest Byte.percent mask
      · simp [escape, ht, ha, hb, Tok.escaped, ih]
      · -- the two digits are then looked at on their own, and no mask flags them
        have hrest : escape (a :: b :: s) mask = a :: b :: escape s mask := by
          match s with
          | [] => simp [escape, urlCharTest_of_isXDigit ha, urlCharTest_of_isXDigit hb]
          | [_] => simp [escape, urlCharTest_of_isXDigit ha, urlCharTest_of_isXDigit hb]
          | _ :: _ :: _ =>
              simp [escape, urlCharTest_of_isXDigit ha, urlCharTest_of_isXDigit hb]
        simp [escape, ht, hrest, Tok.escaped, ih]
  | case2 c a b s h ih =>
      by_cases ht : urlCharTest c mask
      · simp [escape, ht, h, Tok.escaped, ih]
      · simp [escape, ht, Tok.escaped, ih]
  | case3 c s h ih =>
      rw [escape.eq_2 _ _ _ h, ih]
      simp [Tok.escaped]
  | case4 => rfl

lemma unescapeLoop_eq_flatMap (accept : UInt8 → Bool) (s : Str) :
    unescapeLoop accept s = (tokens s).flatMap (Tok.unescaped accept) := by
  fun_induction tokens s with
  | case1 c a b s h ih =>
      simp only [Bool.and_eq_true, beq_iff_eq] at h
      obtain ⟨⟨rfl, ha⟩, hb⟩ := h
      by_cases hacc : accept (x2digitsToNum a b)
      · simp [unescapeLoop, ha, hb, isXDigit_ne_zero ha, hacc, Tok.unescaped, ih]
      · -- a rejected escape is copied byte by byte, since its digits are not `%`
        have hrest : unescapeLoop accept (a :: b :: s) = a :: b :: unescapeLoop accept s := by
          match s with
          | [] => simp [unescapeLoop]
          | [_] => simp [unescapeLoop, isXDigit_ne_percent ha]
          | _ :: _ :: _ => simp [unescapeLoop, isXDigit_ne_percent ha, isXDigit_ne_percent hb]
        simp [unescapeLoop, ha, hb, isXDigit_ne_zero ha, hacc, hrest, Tok.unescaped, ih]
  | case2 c a b s h ih =>
      have h' : (c == Byte.percent && isXDigit a && isXDigit b && (a != 0 || b != 0)) = false := by
        rw [Bool.eq_false_of_not_eq_true h, Bool.false_and]
      rw [unescapeLoop, h', if_neg (by simp), ih]
      rfl
  | case3 c s h ih =>
      rw [unescapeLoop.eq_2 _ _ _ h, ih]
      rfl
  | case4 => rfl

lemma upperEscapes_eq_flatMap (s : Str) :
    upperEscapes s = (tokens s).flatMap fun t => t.upper.text := by
  fun_induction tokens s with
  | case1 c a b s h ih =>
      simp only [Bool.and_eq_true, beq_iff_eq] at h
      simp [upperEscapes, h, Tok.upper, Tok.text, ih]
  | case2 c a b s h ih => simp [upperEscapes, h, Tok.upper, Tok.text, ih]
  | case3 c s h ih =>
      rw [upperEscapes.eq_2 _ _ h, ih]
      rfl
  | case4 => rfl

lemma tokens_of_not_mem {s : Str} (h : Byte.percent ∉ s) : tokens s = s.map Tok.raw := by
  induction s with
  | nil => rfl
  | cons c s ih =>
      rw [List.mem_cons, not_or] at h
      rw [tokens_raw (Ne.symm h.1), ih h.2, List.map_cons]

/-- The decoders are their loop: on a string without `%` the loop copies. -/
lemma unescapeIf_eq_flatMap (accept : UInt8 → Bool) (s : Str) :
    unescapeIf accept s = (tokens s).flatMap (Tok.unescaped accept) := by
  rw [unescapeIf]
  split
  · rename_i h
    have hs : Byte.percent ∉ s := by
      rcases Bool.or_eq_true_iff.1 h with h | h
      · simp [List.isEmpty_iff.1 h]
      · simpa using h
    rw [tokens_of_not_mem hs, List.flatMap_map]
    simp [Tok.unescaped]
  · exact unescapeLoop_eq_flatMap accept s

/-! ### Reading tokens back -/

/-- Closed tokens are read back from their texts. -/
lemma tokens_flatMap_text {ts : List Tok} (h : ∀ t ∈ ts, t.Closed) (s : Str) :
    tokens (ts.flatMap Tok.text ++ s) = ts ++ tokens s := by
  induction ts with
  | nil => rfl
  | cons t ts ih =>
      have ht : t.Closed := h t (by simp)
      have hrest := ih fun u hu => h u (by simp [hu])
      cases t with
      | raw c =>
          rw [List.flatMap_cons, Tok.text, List.singleton_append, List.cons_append,
            tokens_raw ht, hrest, List.cons_append]
      | esc a b =>
          simp only [List.flatMap_cons, Tok.text, List.cons_append, List.nil_append]
          rw [tokens_esc ht.1 ht.2, hrest]

lemma tokens_eq_of_text {s : Str} {ts : List Tok} (hs : s = ts.flatMap Tok.text)
    (hts : ∀ t ∈ ts, t.Closed) : tokens s = ts := by
  rw [hs]
  simpa using tokens_flatMap_text hts []

/-- A byte that is not a hexadecimal digit begins a token. -/
lemma tokens_append_of_not_xdigit {d : UInt8} (hd : isXDigit d = false) (s t : Str) :
    tokens (s ++ d :: t) = tokens s ++ tokens (d :: t) := by
  fun_induction tokens s with
  | case1 c a b s h ih =>
      simp only [Bool.and_eq_true, beq_iff_eq] at h
      obtain ⟨⟨rfl, ha⟩, hb⟩ := h
      rw [List.cons_append, List.cons_append, List.cons_append, tokens_esc ha hb, ih,
        List.cons_append]
  | case2 c a b s h ih =>
      rw [List.cons_append, List.cons_append, List.cons_append, tokens, if_neg h]
      exact congrArg _ ih
  | case3 c s h ih =>
      -- at most one byte stands between `c` and `d`
      match s, h with
      | [], _ =>
          match t with
          | [] => simp [tokens]
          | e :: t => simp [tokens, hd]
      | [e], _ =>
          rw [List.cons_append, List.cons_append, List.nil_append, tokens, hd,
            Bool.and_false, if_neg (by simp)]
          exact congrArg _ ih
      | a :: b :: s, h => exact absurd rfl (h a b s)
  | case4 => rfl

/-- An escape does not reach over a byte that is never part of one. -/
lemma tokens_append_cons {d : UInt8} (hd : Outside d) (s t : Str) :
    tokens (s ++ d :: t) = tokens s ++ .raw d :: tokens t := by
  rw [tokens_append_of_not_xdigit hd.not_xdigit, tokens_raw hd.ne_percent]

lemma tokens_append {s : Str} (hs : Closed s) (t : Str) :
    tokens (s ++ t) = tokens s ++ tokens t := by
  have h := tokens_flatMap_text hs t
  rwa [text_tokens] at h

lemma Closed.append {s t : Str} (hs : Closed s) (ht : Closed t) : Closed (s ++ t) := by
  intro x hx
  rw [tokens_append hs, List.mem_append] at hx
  exact hx.elim (hs x) (ht x)

lemma Closed.cons {c : UInt8} {s : Str} (hc : c ≠ Byte.percent) (hs : Closed s) :
    Closed (c :: s) := by
  intro x hx
  rw [tokens_raw hc, List.mem_cons] at hx
  rcases hx with rfl | hx
  · exact hc
  · exact hs x hx

lemma closed_of_not_mem {s : Str} (h : Byte.percent ∉ s) : Closed s := by
  intro t ht
  rw [tokens_of_not_mem h, List.mem_map] at ht
  obtain ⟨c, hc, rfl⟩ := ht
  rintro rfl
  exact h hc

lemma closed_append_cons_iff {d : UInt8} (hd : Outside d) {s t : Str} :
    Closed (s ++ d :: t) ↔ Closed s ∧ Closed t := by
  simp only [Closed, tokens_append_cons hd, List.mem_append, List.mem_cons]
  constructor
  · intro h
    exact ⟨fun x hx => h x (Or.inl hx), fun x hx => h x (Or.inr (Or.inr hx))⟩
  · rintro ⟨hs, ht⟩ x (hx | rfl | hx)
    · exact hs x hx
    · exact hd.ne_percent
    · exact ht x hx

lemma raw_closed_or (c : UInt8) : Tok.raw c = .raw Byte.percent ∨ (Tok.raw c).Closed := by
  by_cases hc : c = Byte.percent
  · exact Or.inl (by rw [hc])
  · exact Or.inr hc

lemma tokens_closed_or (s : Str) : ∀ t ∈ tokens s, t = .raw Byte.percent ∨ t.Closed := by
  fun_induction tokens s with
  | case1 c a b s h ih =>
      simp only [Bool.and_eq_true, beq_iff_eq] at h
      intro t ht
      rcases List.mem_cons.1 ht with rfl | ht
      · exact Or.inr ⟨h.1.2, h.2⟩
      · exact ih t ht
  | case2 c a b s h ih =>
      -- no escape begins here; the byte may still be a `%`
      intro t ht
      rcases List.mem_cons.1 ht with rfl | ht
      · exact raw_closed_or c
      · exact ih t ht
  | case3 c s h ih =>
      intro t ht
      rcases List.mem_cons.1 ht with rfl | ht
      · exact raw_closed_or c
      · exact ih t ht
  | case4 => simp

lemma mem_iff_exists_token {c : UInt8} {s : Str} : c ∈ s ↔ ∃ t ∈ tokens s, c ∈ t.text := by
  conv_lhs => rw [← text_tokens s]
  exact List.mem_flatMap

/-- A byte that is never part of an escape occurs as a token of its own. -/
lemma raw_mem_tokens {c : UInt8} (hc : Outside c) {s : Str} : Tok.raw c ∈ tokens s ↔ c ∈ s := by
  rw [mem_iff_exists_token]
  constructor
  · intro h
    exact ⟨.raw c, h, by simp [Tok.text]⟩
  · rintro ⟨t, ht, hct⟩
    cases t with
    | raw d =>
        have hd : c = d := by simpa [Tok.text] using hct
        rwa [hd]
    | esc a b =>
        exfalso
        have hab : (Tok.esc a b).Closed := (tokens_closed_or s _ ht).resolve_left (by simp)
        simp only [Tok.text, List.mem_cons, List.not_mem_nil, or_false] at hct
        rcases hct with rfl | rfl | rfl
        · exact hc.ne_percent rfl
        · exact absurd (hab.1.symm.trans hc.not_xdigit) (by simp)
        · exact absurd (hab.2.symm.trans hc.not_xdigit) (by simp)

/-! ### Escaped strings -/

/-- No byte outside the escapes is flagged by the mask. -/
def Clean (mask : UInt8) (s : Str) : Prop :=
  ∀ c, Tok.raw c ∈ tokens s → urlCharTest c mask = false

variable {mask : UInt8}

/-- The masks of the four components all flag `%`. -/
lemma Clean.closed (hm : urlCharTest Byte.percent mask = true) {s : Str} (h : Clean mask s) :
    Closed s := by
  intro t ht
  rcases tokens_closed_or s t ht with rfl | hc
  · rw [h _ ht] at hm
    exact absurd hm (by simp)
  · exact hc

lemma clean_nil : Clean mask [] := by simp [Clean]

lemma clean_append_cons_iff {d : UInt8} (hd : Outside d) {s t : Str} :
    Clean mask (s ++ d :: t) ↔ Clean mask s ∧ urlCharTest d mask = false ∧ Clean mask t := by
  simp only [Clean, tokens_append_cons hd, List.mem_append, List.mem_cons, Tok.raw.injEq]
  constructor
  · intro h
    exact ⟨fun c hc => h c (Or.inl hc), h d (Or.inr (Or.inl rfl)),
      fun c hc => h c (Or.inr (Or.inr hc))⟩
  · rintro ⟨h1, h2, h3⟩ c (hc | rfl | hc)
    · exact h1 c hc
    · exact h2
    · exact h3 c hc

/-- A flagged byte other than `%` does not occur in a clean string. -/
lemma Clean.not_mem {s : Str} (h : Clean mask s) {c : UInt8} (hc : urlCharTest c mask = true)
    (hne : c ≠ Byte.percent) : c ∉ s := by
  have hx : isXDigit c = false := by
    by_contra hx
    rw [urlCharTest_of_isXDigit (by simpa using hx)] at hc
    exact absurd hc (by simp)
  rw [← raw_mem_tokens ⟨hne, hx⟩]
  intro hmem
  rw [h c hmem] at hc
  exact absurd hc (by simp)

/-- `Url::escape` leaves a clean string as it is. -/
lemma escape_of_clean {s : Str} (h : Clean mask s) : escape s mask = s := by
  rw [escape_eq_flatMap]
  conv_rhs => rw [← text_tokens s]
  refine List.flatMap_congr fun t ht => ?_
  cases t with
  | raw c => simp [Tok.escaped, Tok.text, h c ht]
  | esc a b => rfl

/-- The tokens of an escaped string: flagged bytes have become escapes. -/
def Tok.escape (mask : UInt8) : Tok → Tok
  | raw c => if urlCharTest c mask then
      esc (digitToXnum (c >>> 4)) (digitToXnum (c &&& 0xf)) else raw c
  | esc a b => esc a b

lemma tokens_escape (hm : urlCharTest Byte.percent mask = true) (s : Str) :
    tokens (escape s mask) = (tokens s).map (Tok.escape mask) := by
  have htext : escape s mask = ((tokens s).map (Tok.escape mask)).flatMap Tok.text := by
    rw [escape_eq_flatMap, List.flatMap_map]
    refine List.flatMap_congr fun t _ => ?_
    cases t with
    | raw c =>
        by_cases hc : urlCharTest c mask <;>
          simp [Tok.escaped, Tok.escape, Tok.text, pctEncode, hc]
    | esc a b => rfl
  -- the mask flags `%`, so that none is left alone
  have hclosed : ∀ t ∈ (tokens s).map (Tok.escape mask), t.Closed := by
    intro t ht
    obtain ⟨t', ht', rfl⟩ := List.mem_map.1 ht
    cases t' with
    | raw c =>
        by_cases hc : urlCharTest c mask
        · rw [Tok.escape, if_pos hc]
          exact ⟨isXDigit_digitToXnum_shift c, isXDigit_digitToXnum_and c⟩
        · rw [Tok.escape, if_neg hc]
          rintro rfl
          exact hc hm
    | esc a b => exact (tokens_closed_or s _ ht').resolve_left (by simp)
  exact tokens_eq_of_text htext hclosed

/-- `Url::escape` makes a string clean. -/
lemma clean_escape (hm : urlCharTest Byte.percent mask = true) (s : Str) :
    Clean mask (escape s mask) := by
  intro c hc
  rw [tokens_escape hm, List.mem_map] at hc
  obtain ⟨t, -, ht⟩ := hc
  cases t with
  | raw d =>
      by_cases hd : urlCharTest d mask
      · simp [Tok.escape, hd] at ht
      · simp only [Tok.escape, hd, Bool.false_eq_true, if_false, Tok.raw.injEq] at ht
        rw [← ht]
        simpa using hd
  | esc a b => simp [Tok.escape] at ht

/-- The first character of an escaped string. -/
lemma escape_cons (mask c : UInt8) (s : Str) :
    ∃ t, escape (c :: s) mask = (if urlCharTest c mask then Byte.percent else c) :: t := by
  rw [escape.eq_def]
  split
  · rename_i heq
    obtain ⟨rfl, -⟩ := List.cons.inj heq
    split
    · split
      · rename_i hpct
        simp only [Bool.and_eq_true, beq_iff_eq] at hpct
        exact ⟨_, by rw [hpct.1.1]⟩
      · exact ⟨_, rfl⟩
    · exact ⟨_, rfl⟩
  · rename_i heq
    obtain ⟨rfl, -⟩ := List.cons.inj heq
    split
    · exact ⟨_, rfl⟩
    · exact ⟨_, rfl⟩
  · rename_i heq
    exact absurd heq (List.cons_ne_nil _ _)

lemma escape_eq_nil_iff {s : Str} : escape s mask = [] ↔ s = [] := by
  rw [escape_eq_flatMap, List.flatMap_eq_nil_iff]
  constructor
  · intro h
    rw [← text_tokens s, List.flatMap_eq_nil_iff]
    intro t ht
    have := h t ht
    cases t with
    | raw c => by_cases hc : urlCharTest c mask <;> simp [Tok.escaped, hc, pctEncode] at this
    | esc a b => simp [Tok.escaped] at this
  · rintro rfl
    simp

/-- A byte that is not flagged and does not belong to an escape stays in place. -/
lemma mem_escape_iff (hm : urlCharTest Byte.percent mask = true) {c : UInt8} (hd : Outside c)
    (hc : urlCharTest c mask = false) {s : Str} : c ∈ escape s mask ↔ c ∈ s := by
  rw [← raw_mem_tokens hd, ← raw_mem_tokens hd, tokens_escape hm, List.mem_map]
  constructor
  · rintro ⟨t, ht, h⟩
    cases t with
    | raw d =>
        by_cases hd : urlCharTest d mask
        · simp [Tok.escape, hd] at h
        · simp only [Tok.escape, hd, Bool.false_eq_true, if_false] at h
          rwa [← h]
    | esc a b => simp [Tok.escape] at h
  · intro h
    exact ⟨.raw c, h, by simp [Tok.escape, hc]⟩

/-- Escaping goes on both sides of a delimiter by itself. -/
lemma escape_append_cons {d : UInt8} (hd : Outside d) (hm : urlCharTest d mask = false)
    (s t : Str) : escape (s ++ d :: t) mask = escape s mask ++ d :: escape t mask := by
  simp only [escape_eq_flatMap, tokens_append_cons hd, List.flatMap_append, List.flatMap_cons,
    Tok.escaped, hm]
  rfl

/-! ### Normalized escapes -/

lemma urlCharTest_of_urlCharSafe {c : UInt8} (h : urlCharSafe c = true) (mask : UInt8) :
    urlCharTest c mask = false := by
  have hflags := urlCharFlags_eq_zero c (Or.inr h)
  simp [urlCharTest, hflags]

lemma urlCharSafe_ne_percent {c : UInt8} (h : urlCharSafe c = true) : c ≠ Byte.percent := by
  rintro rfl
  exact absurd h (by decide)

lemma isXDigit_toUpper {c : UInt8} (h : isXDigit c = true) : isXDigit (toUpper c) = true := by
  simp only [isXDigit, isDigit, toUpper, Bool.or_eq_true, Bool.and_eq_true,
    decide_eq_true_eq] at h ⊢
  grind

namespace Tok

/-- What `Url::unescape_safe` makes of a token. -/
def decodeSafe : Tok → Tok
  | raw c => raw c
  | esc a b => if urlCharSafe (x2digitsToNum a b) then raw (x2digitsToNum a b) else esc a b

/-- What `Url::normalize_escapes` makes of a token. -/
def normalize (t : Tok) : Tok := t.decodeSafe.upper

lemma Closed.decodeSafe {t : Tok} (h : t.Closed) : t.decodeSafe.Closed := by
  cases t with
  | raw c => exact h
  | esc a b =>
      rw [Tok.decodeSafe]
      split
      · rename_i hsafe
        exact urlCharSafe_ne_percent hsafe
      · exact h

lemma Closed.upper {t : Tok} (h : t.Closed) : t.upper.Closed := by
  cases t with
  | raw c => exact h
  | esc a b => exact ⟨isXDigit_toUpper h.1, isXDigit_toUpper h.2⟩

/-- Normalization keeps the plain bytes and adds only safe ones. -/
lemma normalize_eq_raw {t : Tok} {c : UInt8} (h : t.normalize = raw c) :
    t = raw c ∨ urlCharSafe c = true := by
  cases t with
  | raw d => exact Or.inl h
  | esc a b =>
      rw [normalize, decodeSafe] at h
      split at h
      · rename_i hsafe
        rw [upper, raw.injEq] at h
        exact Or.inr (h ▸ hsafe)
      · exact absurd h (by simp [upper])

end Tok

lemma tokens_unescapeSafe {s : Str} (hs : Closed s) :
    tokens (unescapeSafe s) = (tokens s).map Tok.decodeSafe := by
  refine tokens_eq_of_text ?_ fun t ht => ?_
  · rw [unescapeSafe, unescapeIf_eq_flatMap, List.flatMap_map]
    refine List.flatMap_congr fun t _ => ?_
    cases t with
    | raw c => rfl
    | esc a b =>
        by_cases h : urlCharSafe (x2digitsToNum a b) <;>
          simp [Tok.unescaped, Tok.decodeSafe, Tok.text, h]
  · obtain ⟨t', ht', rfl⟩ := List.mem_map.1 ht
    exact (hs t' ht').decodeSafe

/-- On a closed string `Url::normalize_escapes` works token by token. -/
lemma tokens_normalizeEscapes {s : Str} (hs : Closed s) :
    tokens (normalizeEscapes s) = (tokens s).map Tok.normalize := by
  refine tokens_eq_of_text ?_ fun t ht => ?_
  · rw [normalizeEscapes, upperEscapes_eq_flatMap, tokens_unescapeSafe hs, List.flatMap_map,
      List.flatMap_map]
    rfl
  · obtain ⟨t', ht', rfl⟩ := List.mem_map.1 ht
    exact (hs t' ht').decodeSafe.upper

lemma Clean.normalizeEscapes (hm : urlCharTest Byte.percent mask = true) {s : Str}
    (h : Clean mask s) : Clean mask (normalizeEscapes s) := by
  intro c hc
  rw [tokens_normalizeEscapes (h.closed hm), List.mem_map] at hc
  obtain ⟨t, ht, htc⟩ := hc
  rcases Tok.normalize_eq_raw htc with rfl | hsafe
  · exact h c ht
  · exact urlCharTest_of_urlCharSafe hsafe mask

lemma normalizeEscapes_eq_flatMap {s : Str} (hs : Closed s) :
    normalizeEscapes s = (tokens s).flatMap fun t => t.normalize.text := by
  have h := text_tokens (normalizeEscapes s)
  rw [tokens_normalizeEscapes hs, List.flatMap_map] at h
  exact h.symm

lemma normalizeEscapes_append {s t : Str} (hs : Closed s) (ht : Closed t) :
    normalizeEscapes (s ++ t) = normalizeEscapes s ++ normalizeEscapes t := by
  rw [normalizeEscapes_eq_flatMap (hs.append ht), tokens_append hs, List.flatMap_append,
    ← normalizeEscapes_eq_flatMap hs, ← normalizeEscapes_eq_flatMap ht]

lemma normalizeEscapes_cons {c : UInt8} (hc : c ≠ Byte.percent) {s : Str} (hs : Closed s) :
    normalizeEscapes (c :: s) = c :: normalizeEscapes s := by
  rw [normalizeEscapes_eq_flatMap (hs.cons hc), tokens_raw hc, List.flatMap_cons,
    ← normalizeEscapes_eq_flatMap hs]
  rfl

lemma normalizeEscapes_of_not_mem {s : Str} (h : Byte.percent ∉ s) : normalizeEscapes s = s := by
  rw [normalizeEscapes_eq_flatMap (closed_of_not_mem h), tokens_of_not_mem h, List.flatMap_map]
  simp [Tok.normalize, Tok.decodeSafe, Tok.upper, Tok.text]

lemma normalizeEscapes_eq_nil_iff {s : Str} (hs : Closed s) : normalizeEscapes s = [] ↔ s = [] := by
  constructor
  · intro h
    have htok := tokens_normalizeEscapes hs
    rw [h, tokens_nil] at htok
    rw [← text_tokens s, List.map_eq_nil_iff.1 htok.symm]
    rfl
  · rintro rfl
    rfl

/-- A normalized string begins with a delimiter when the string does. -/
lemma eq_cons_of_normalizeEscapes {d : UInt8} (hd : Delim d) {s r : Str} (hs : Closed s)
    (h : normalizeEscapes s = d :: r) : ∃ t, s = d :: t := by
  have htok := tokens_normalizeEscapes hs
  rw [h, tokens_raw hd.ne_percent] at htok
  obtain ⟨t, ts, hts, ht, -⟩ := List.map_eq_cons_iff.1 htok.symm
  rcases Tok.normalize_eq_raw ht with rfl | hd'
  · refine ⟨ts.flatMap Tok.text, ?_⟩
    rw [← text_tokens s, hts]
    rfl
  · exact absurd (hd'.symm.trans hd.not_safe) (by simp)

/-- Normalization moves no delimiter: it occurs in the normalized string if and only if it occurs in
the string. -/
lemma mem_normalizeEscapes_iff {c : UInt8} (hc : Delim c) {s : Str} (hs : Closed s) :
    c ∈ normalizeEscapes s ↔ c ∈ s := by
  rw [← raw_mem_tokens hc.toOutside, ← raw_mem_tokens hc.toOutside, tokens_normalizeEscapes hs,
    List.mem_map]
  constructor
  · rintro ⟨t, ht, htc⟩
    rcases Tok.normalize_eq_raw htc with rfl | h
    · exact ht
    · exact absurd (h.symm.trans hc.not_safe) (by simp)
  · intro h
    exact ⟨.raw c, h, rfl⟩

/-! ### Normalizing twice -/

lemma toUpper_toUpper (c : UInt8) : toUpper (toUpper c) = toUpper c := by
  simp only [toUpper, Bool.and_eq_true, decide_eq_true_eq]
  grind

lemma xdigitToNum_toUpper (c : UInt8) : xdigitToNum (toUpper c) = xdigitToNum c := by
  simp only [toUpper, xdigitToNum, Bool.and_eq_true, decide_eq_true_eq]
  grind

lemma x2digitsToNum_toUpper (a b : UInt8) :
    x2digitsToNum (toUpper a) (toUpper b) = x2digitsToNum a b := by
  rw [x2digitsToNum, xdigitToNum_toUpper, xdigitToNum_toUpper, x2digitsToNum]

lemma Tok.normalize_normalize (t : Tok) : t.normalize.normalize = t.normalize := by
  cases t with
  | raw c => rfl
  | esc a b =>
      by_cases hsafe : urlCharSafe (x2digitsToNum a b) = true
      · simp [normalize, decodeSafe, hsafe, upper]
      · simp [normalize, decodeSafe, hsafe, upper, x2digitsToNum_toUpper, toUpper_toUpper]

/-- Every `%` starts an escape, and all escapes are normalized. -/
def Stable (s : Str) : Prop := ∀ t ∈ tokens s, t.Closed ∧ t.normalize = t

lemma Stable.closed {s : Str} (h : Stable s) : Closed s := fun t ht => (h t ht).1

lemma Stable.eq {s : Str} (h : Stable s) : normalizeEscapes s = s := by
  calc normalizeEscapes s = (tokens s).flatMap fun t => t.normalize.text :=
        normalizeEscapes_eq_flatMap h.closed
    _ = (tokens s).flatMap Tok.text := List.flatMap_congr fun t ht => by rw [(h t ht).2]
    _ = s := text_tokens s

lemma stable_normalizeEscapes {s : Str} (hs : Closed s) : Stable (normalizeEscapes s) := by
  intro t ht
  rw [tokens_normalizeEscapes hs, List.mem_map] at ht
  obtain ⟨t', ht', rfl⟩ := ht
  exact ⟨(hs t' ht').decodeSafe.upper, t'.normalize_normalize⟩

lemma stable_append_cons_iff {d : UInt8} (hd : Outside d) {s t : Str} :
    Stable (s ++ d :: t) ↔ Stable s ∧ Stable t := by
  have hraw : (Tok.raw d).Closed ∧ (Tok.raw d).normalize = Tok.raw d := ⟨hd.ne_percent, rfl⟩
  simp only [Stable, tokens_append_cons hd, List.forall_mem_append, List.forall_mem_cons, hraw,
    true_and]

/-! ### Lower case -/

/-- A token in lower case. -/
def Tok.lower : Tok → Tok
  | raw c => raw (toLower c)
  | esc a b => esc (toLower a) (toLower b)

lemma isXDigit_toLower (c : UInt8) : isXDigit (toLower c) = isXDigit c := by
  rw [Bool.eq_iff_iff]
  simp only [isXDigit, isDigit, toLower, Bool.or_eq_true, Bool.and_eq_true, decide_eq_true_eq]
  grind

lemma toLower_beq_percent (c : UInt8) : (toLower c == Byte.percent) = (c == Byte.percent) := by
  rw [Bool.eq_iff_iff]
  simp only [toLower, Byte.percent, beq_iff_eq, Bool.and_eq_true, decide_eq_true_eq]
  grind

lemma xdigitToNum_toLower (c : UInt8) : xdigitToNum (toLower c) = xdigitToNum c := by
  simp only [toLower, toUpper, xdigitToNum, Bool.and_eq_true, decide_eq_true_eq]
  grind

/-- Lower case does not change the cut into tokens. -/
lemma tokens_map_toLower (s : Str) : tokens (s.map toLower) = (tokens s).map Tok.lower := by
  fun_induction tokens s with
  | case1 c a b s h ih =>
      simp only [List.map_cons, tokens, toLower_beq_percent, isXDigit_toLower, h, if_true, ih]
      rfl
  | case2 c a b s h ih =>
      simp only [List.map_cons] at ih
      simp only [List.map_cons, tokens, toLower_beq_percent, isXDigit_toLower, h,
        Bool.false_eq_true, if_false, ih]
      rfl
  | case3 c s h ih =>
      rw [List.map_cons, tokens.eq_2, ih]
      · rfl
      · -- lower case keeps the length, so that there is no room for an escape either
        intro a b t hs
        obtain ⟨a', s', rfl, -, hs'⟩ := List.map_eq_cons_iff.1 hs
        obtain ⟨b', s'', rfl, -, -⟩ := List.map_eq_cons_iff.1 hs'
        exact h a' b' s'' rfl
  | case4 => rfl

lemma Closed.map_toLower {h : Str} (hc : Closed h) : Closed (h.map toLower) := by
  intro t ht
  rw [tokens_map_toLower, List.mem_map] at ht
  obtain ⟨t', ht', rfl⟩ := ht
  have hc' := hc t' ht'
  cases t' with
  | raw c =>
      intro habs
      have hbeq := toLower_beq_percent c
      rw [habs, beq_self_eq_true] at hbeq
      exact hc' (by simpa using hbeq.symm)
  | esc a b => exact ⟨(isXDigit_toLower a).trans hc'.1, (isXDigit_toLower b).trans hc'.2⟩

end Mycelium
