import Mycelium.Common.Escape

/-!
# Laws of percent-encoding

How the encoder, the decoders and `Url::normalize_escapes` relate to each other on whole strings:
what an escaped string looks like, when decoding undoes encoding, which strings have one
normal form, and which strings are decoded to a string with a NUL.

The conditions of these laws speak of the places of a string at which a `%` stands.
`percent_of_raw_mem` and `tokens_percent` connect them with the tokens.
-/

namespace Mycelium

/-! ### The places of a percent sign -/

/-- The string begins with two hexadecimal digits. -/
def digitsFollow : Str → Bool
  | a :: b :: _ => isXDigit a && isXDigit b
  | _ => false

/-- Every `%` of the string starts an escape. -/
def OnlyEscapes (s : Str) : Prop :=
  ∀ x y, s = x ++ Byte.percent :: y → digitsFollow y = true

/-- No `%` of the string starts an escape. -/
def NoEscapes (s : Str) : Prop :=
  ∀ x y, s = x ++ Byte.percent :: y → digitsFollow y = false

lemma forall_percent_iff {p : Str → Prop} {s : Str} :
    (∀ x y, s = x ++ Byte.percent :: y → p y) ↔
      ∀ t ∈ s.tails, t.head? = some Byte.percent → p t.tail := by
  constructor
  · intro h t ht hhead
    obtain ⟨x, hx⟩ := (List.mem_tails t s).1 ht
    rw [List.head?_eq_some_iff] at hhead
    obtain ⟨y, rfl⟩ := hhead
    exact h x y hx.symm
  · intro h x y hs
    exact h (Byte.percent :: y) ((List.mem_tails _ s).2 ⟨x, hs.symm⟩) rfl

instance (s : Str) : Decidable (OnlyEscapes s) := decidable_of_iff _ forall_percent_iff.symm

instance (s : Str) : Decidable (NoEscapes s) := decidable_of_iff _ forall_percent_iff.symm

lemma tokens_percent {y : Str} (h : digitsFollow y = false) :
    tokens (Byte.percent :: y) = .raw Byte.percent :: tokens y := by
  rcases y with _ | ⟨a, _ | ⟨b, t⟩⟩
  · rfl
  · rfl
  · rw [tokens, Bool.and_assoc, show (isXDigit a && isXDigit b) = false from h]
    simp

/-- A `%` that is a token of its own does not start an escape. -/
lemma percent_of_raw_mem {s : Str} (h : Tok.raw Byte.percent ∈ tokens s) :
    ∃ x y, s = x ++ Byte.percent :: y ∧ digitsFollow y = false := by
  fun_induction tokens s with
  | case1 c a b s hesc ih =>
      obtain ⟨x, y, rfl, hy⟩ := ih (by simpa using h)
      exact ⟨c :: a :: b :: x, y, rfl, hy⟩
  | case2 c a b s hesc ih =>
      rcases List.mem_cons.1 h with hc | h
      · cases hc
        refine ⟨[], a :: b :: s, rfl, ?_⟩
        simpa [digitsFollow] using hesc
      · obtain ⟨x, y, hxy, hy⟩ := ih h
        exact ⟨c :: x, y, by rw [hxy, List.cons_append], hy⟩
  | case3 c s hshort ih =>
      rcases List.mem_cons.1 h with hc | h
      · cases hc
        refine ⟨[], s, rfl, ?_⟩
        rcases s with _ | ⟨a, _ | ⟨b, t⟩⟩
        · rfl
        · rfl
        · exact absurd rfl (hshort a b t)
      · obtain ⟨x, y, rfl, hy⟩ := ih h
        exact ⟨c :: x, y, rfl, hy⟩
  | case4 => cases h

lemma OnlyEscapes.closed {s : Str} (hs : OnlyEscapes s) : Closed s := by
  intro t ht
  rcases tokens_closed_or s t ht with rfl | hclosed
  · obtain ⟨x, y, hxy, hy⟩ := percent_of_raw_mem ht
    exact absurd ((hs x y hxy).symm.trans hy) (by simp)
  · exact hclosed

lemma text_infix_of_mem {s : Str} {t : Tok} (h : t ∈ tokens s) :
    ∃ x y, s = x ++ (t.text ++ y) := by
  obtain ⟨l, r, hlr⟩ := List.append_of_mem h
  refine ⟨l.flatMap Tok.text, r.flatMap Tok.text, ?_⟩
  rw [← text_tokens s, hlr, List.flatMap_append, List.flatMap_cons]

/-- An escape is a token wherever it stands. -/
lemma esc_mem_iff {a b : UInt8} (ha : isXDigit a = true) (hb : isXDigit b = true) {s : Str} :
    Tok.esc a b ∈ tokens s ↔ [Byte.percent, a, b] <:+: s := by
  constructor
  · intro h
    obtain ⟨x, y, hxy⟩ := text_infix_of_mem h
    exact ⟨x, y, by rw [hxy, List.append_assoc]; rfl⟩
  · rintro ⟨x, y, rfl⟩
    rw [List.append_assoc, List.cons_append, tokens_append_of_not_xdigit (by decide),
      List.cons_append, List.cons_append, List.nil_append, tokens_esc ha hb]
    simp

lemma NoEscapes.eq_raw {s : Str} (hs : NoEscapes s) {t : Tok} (ht : t ∈ tokens s) :
    ∃ c, t = .raw c := by
  cases t with
  | raw c => exact ⟨c, rfl⟩
  | esc a b =>
      have hclosed : (Tok.esc a b).Closed := (tokens_closed_or s _ ht).resolve_left (by simp)
      obtain ⟨x, y, hxy⟩ := text_infix_of_mem ht
      have hdigits := hs x (a :: b :: y) hxy
      rw [digitsFollow, hclosed.1, hclosed.2] at hdigits
      exact absurd hdigits (by simp)

/-! ### Escaping twice -/

section
variable {mask : UInt8}

lemma urlCharTest_of_mem_escaped (hm : urlCharTest Byte.percent mask = false) {t : Tok}
    (ht : t = .raw Byte.percent ∨ t.Closed) {c : UInt8} (hc : c ∈ t.escaped mask) :
    urlCharTest c mask = false := by
  cases t with
  | raw d =>
      rw [Tok.escaped] at hc
      split at hc
      · simp only [pctEncode, List.mem_cons, List.not_mem_nil, or_false] at hc
        rcases hc with rfl | rfl | rfl
        · exact hm
        · exact urlCharTest_of_isXDigit (isXDigit_digitToXnum_shift d) mask
        · exact urlCharTest_of_isXDigit (isXDigit_digitToXnum_and d) mask
      · rename_i hd
        rw [List.mem_singleton.1 hc]
        simpa using hd
  | esc a b =>
      obtain ⟨ha, hb⟩ := ht.resolve_left (by simp)
      simp only [Tok.escaped, List.mem_cons, List.not_mem_nil, or_false] at hc
      rcases hc with rfl | rfl | rfl
      · exact hm
      · exact urlCharTest_of_isXDigit ha mask
      · exact urlCharTest_of_isXDigit hb mask

/-- With a mask that does not flag `%` no flagged byte is left at all. -/
lemma urlCharTest_of_mem_escape (hm : urlCharTest Byte.percent mask = false) {s : Str} {c : UInt8}
    (hc : c ∈ escape s mask) : urlCharTest c mask = false := by
  rw [escape_eq_flatMap, List.mem_flatMap] at hc
  obtain ⟨t, ht, hct⟩ := hc
  exact urlCharTest_of_mem_escaped hm (tokens_closed_or s t ht) hct

/-- `Url::escape` makes a string clean, whatever the mask. -/
lemma clean_escape_all (mask : UInt8) (s : Str) : Clean mask (escape s mask) := by
  cases hm : urlCharTest Byte.percent mask with
  | true => exact clean_escape hm s
  | false =>
      intro c hc
      exact urlCharTest_of_mem_escape hm (mem_iff_exists_token.2 ⟨_, hc, by simp [Tok.text]⟩)

/-- The only flagged bytes of a clean string are the `%` of its escapes. -/
lemma Clean.percent_of_split {s x y : Str} {c : UInt8} (h : Clean mask s) (hs : s = x ++ c :: y)
    (hc : urlCharTest c mask = true) : c = Byte.percent ∧ digitsFollow y = true := by
  have hpct : c = Byte.percent := by
    by_contra hne
    exact h.not_mem hc hne (by simp [hs])
  refine ⟨hpct, ?_⟩
  by_contra hdigits
  have hraw : Tok.raw Byte.percent ∈ tokens s := by
    rw [hs, hpct, tokens_append_of_not_xdigit (by decide),
      tokens_percent (Bool.eq_false_of_not_eq_true hdigits)]
    simp
  rw [hpct, h _ hraw] at hc
  cases hc

/-- Escaping is idempotent for every mask, and the only flagged bytes that it leaves are the `%` of
escapes. -/
theorem escape_escape_complete (s : Str) (mask : UInt8) :
    escape (escape s mask) mask = escape s mask ∧
      ∀ x c y, escape s mask = x ++ c :: y → urlCharTest c mask = true →
        c = Byte.percent ∧ digitsFollow y = true :=
  ⟨escape_of_clean (clean_escape_all mask s),
    fun _ _ _ hsplit hc => (clean_escape_all mask s).percent_of_split hsplit hc⟩

example : escape (escape (lit "a b%zz%2f") urlCharUnsafe) urlCharUnsafe =
    lit "a%20b%25zz%2f" := by decide

end

/-! ### Decoding an escaped string -/

/-- `unescape_all`, the name under which `Url::unescape(s)` is exported to Python. -/
def unescapeAll (s : Str) : Str := unescape s

lemma Tok.unescaped_escape_raw (mask c : UInt8) :
    ((Tok.raw c).escape mask).unescaped (fun _ => true) = [c] := by
  rw [Tok.escape]
  split
  · rw [Tok.unescaped, x2digitsToNum_digits, if_pos rfl]
  · rfl

lemma unescape_escape_of_noEscapes {mask : UInt8} (hm : urlCharTest Byte.percent mask = true)
    {s : Str} (hs : NoEscapes s) : unescape (escape s mask) = s := by
  rw [unescape, unescapeIf_eq_flatMap, tokens_escape hm, List.flatMap_map]
  conv_rhs => rw [← text_tokens s]
  refine List.flatMap_congr fun t ht => ?_
  obtain ⟨c, rfl⟩ := hs.eq_raw ht
  exact Tok.unescaped_escape_raw mask c

/-- Decoding undoes encoding on the strings that have no escape. -/
theorem unescape_escape (s : Str) (mask : UInt8) (hm : urlCharTest Byte.percent mask = true)
    (hs : NoEscapes s) :
    unescape (escape s mask) = s ∧ unescapeAll (escapeReservedUnsafe s) = s :=
  ⟨unescape_escape_of_noEscapes hm hs, unescape_escape_of_noEscapes (by decide) hs⟩

theorem unescape_escape_stray :
    unescape (escape (lit "5% of %zz") urlCharUnsafe) = lit "5% of %zz" ∧
      unescapeAll (escapeReservedUnsafe (lit "5% of %zz")) = lit "5% of %zz" :=
  unescape_escape (lit "5% of %zz") urlCharUnsafe (by decide) (by decide)

/-! ### Decoding to NUL -/

/-- The two digits of a byte, in upper case. -/
lemma digits_toUpper {a b : UInt8} (ha : isXDigit a = true) (hb : isXDigit b = true) :
    digitToXnum (x2digitsToNum a b >>> 4) = toUpper a ∧
      digitToXnum (x2digitsToNum a b &&& 0xf) = toUpper b := by
  rw [← x2digitsToNum_toUpper a b]
  exact digits_x2digitsToNum (isXDigit_toUpper ha) (isXDigit_toUpper hb) (toUpper_toUpper a)
    (toUpper_toUpper b)

lemma eq_zeroDigit_of_toUpper {a : UInt8} (h : (0x30 : UInt8) = toUpper a) : a = 0x30 := by
  simp only [toUpper, Bool.and_eq_true, decide_eq_true_eq] at h
  grind

lemma x2digitsToNum_eq_zero {a b : UInt8} (ha : isXDigit a = true) (hb : isXDigit b = true)
    (h : x2digitsToNum a b = 0) : a = 0x30 ∧ b = 0x30 := by
  have hdigits := digits_toUpper ha hb
  rw [h] at hdigits
  exact ⟨eq_zeroDigit_of_toUpper hdigits.1, eq_zeroDigit_of_toUpper hdigits.2⟩

/-- A token that has no NUL is decoded to one if and only if it is the escape of NUL and NUL is
accepted. -/
lemma Tok.zero_mem_unescaped {t : Tok} (ht : t = .raw Byte.percent ∨ t.Closed) (h0 : 0 ∉ t.text)
    {accept : UInt8 → Bool} (h : 0 ∈ t.unescaped accept) :
    accept 0 = true ∧ t = .esc 0x30 0x30 := by
  cases t with
  | raw c => exact absurd h h0
  | esc a b =>
      obtain ⟨ha, hb⟩ := ht.resolve_left (by simp)
      rw [Tok.unescaped] at h
      split at h
      · rename_i haccept
        have hzero : x2digitsToNum a b = 0 := (List.mem_singleton.1 h).symm
        obtain ⟨rfl, rfl⟩ := x2digitsToNum_eq_zero ha hb hzero
        exact ⟨hzero ▸ haccept, rfl⟩
      · exact absurd h h0

/-- A decoder writes a NUL if and only if it accepts one and the string has the escape of NUL. -/
lemma zero_mem_unescapeIf {s : Str} (h0 : 0 ∉ s) (accept : UInt8 → Bool) :
    0 ∈ unescapeIf accept s ↔ accept 0 = true ∧ lit "%00" <:+: s := by
  have hnul : lit "%00" = [Byte.percent, 0x30, 0x30] := by decide
  rw [unescapeIf_eq_flatMap, List.mem_flatMap, hnul, ← esc_mem_iff (by decide) (by decide)]
  constructor
  · rintro ⟨t, ht, h⟩
    have htext : 0 ∉ t.text := fun hc => h0 (mem_iff_exists_token.2 ⟨t, ht, hc⟩)
    obtain ⟨haccept, rfl⟩ := Tok.zero_mem_unescaped (tokens_closed_or s t ht) htext h
    exact ⟨haccept, ht⟩
  · rintro ⟨haccept, hesc⟩
    have hzero : x2digitsToNum 0x30 0x30 = 0 := by decide
    exact ⟨_, hesc, by simp [Tok.unescaped, hzero, haccept]⟩

/-- The digits of an escape are compared with NUL and not with `'0'`, so that the escape of NUL is
decoded like any other: only `Url::unescape_safe` never writes a NUL. -/
theorem zero_mem_unescape_iff (s : Str) (mask : UInt8) (h0 : 0 ∉ s) :
    (0 ∈ unescape s ↔ lit "%00" <:+: s) ∧
      (0 ∈ unescapeMask s mask ↔ urlCharTest 0 mask = true ∧ lit "%00" <:+: s) ∧
      (0 ∈ unescapeNot s mask ↔ urlCharTest 0 mask = false ∧ lit "%00" <:+: s) ∧
      0 ∉ unescapeSafe s := by
  refine ⟨?_, zero_mem_unescapeIf h0 _, ?_, ?_⟩
  · rw [unescape, zero_mem_unescapeIf h0]
    simp
  · rw [unescapeNot, zero_mem_unescapeIf h0]
    simp [urlCharTest]
  · rw [unescapeSafe, zero_mem_unescapeIf h0]
    exact fun h => absurd h.1 (by decide)

theorem zero_mem_unescape_iff_plain : 0 ∉ unescape (lit "a%20b") := by
  rw [(zero_mem_unescape_iff (lit "a%20b") 0 (by decide)).1]
  decide

/-- The escape of NUL is decoded by three of the four decoders. -/
theorem zero_mem_unescape_nul :
    0 ∉ lit "%00" ∧ 0 ∈ unescape (lit "%00") ∧ 0 ∈ unescapeMask (lit "%00") urlCharUnsafe ∧
      0 ∈ unescapeNot (lit "%00") urlCharReserved := by decide

/-! ### The normal form -/

/-- What an escape or a byte of a string stands for: a byte as it is, or an escaped byte. -/
inductive Sym where
  | literal (c : UInt8)
  | escaped (c : UInt8)
deriving DecidableEq

/-- What a token stands for.  An escaped byte that is neither reserved nor unsafe is the same as the
byte, and the case of the digits does not count. -/
def Tok.sym : Tok → Sym
  | raw c => .literal c
  | esc a b =>
      if urlCharSafe (x2digitsToNum a b) then .literal (x2digitsToNum a b)
      else .escaped (x2digitsToNum a b)

/-- The token in normal form that stands for a byte or an escaped byte. -/
def Sym.tok : Sym → Tok
  | literal c => .raw c
  | escaped c => .esc (digitToXnum (c >>> 4)) (digitToXnum (c &&& 0xf))

/-- What a string stands for. -/
def syms (s : Str) : List Sym := (tokens s).map Tok.sym

lemma Tok.sym_normalize (t : Tok) : t.normalize.sym = t.sym := by
  cases t with
  | raw c => rfl
  | esc a b =>
      by_cases hsafe : urlCharSafe (x2digitsToNum a b) = true
      · simp [normalize, decodeSafe, hsafe, upper, sym]
      · simp [normalize, decodeSafe, hsafe, upper, sym, x2digitsToNum_toUpper]

lemma Tok.tok_sym {t : Tok} (ht : t.Closed) : t.sym.tok = t.normalize := by
  cases t with
  | raw c => rfl
  | esc a b =>
      obtain ⟨ha, hb⟩ := digits_toUpper ht.1 ht.2
      by_cases hsafe : urlCharSafe (x2digitsToNum a b) = true
      · simp [normalize, decodeSafe, hsafe, upper, sym, Sym.tok]
      · simp [normalize, decodeSafe, hsafe, upper, sym, Sym.tok, ha, hb]

lemma syms_normalizeEscapes {s : Str} (hs : Closed s) : syms (normalizeEscapes s) = syms s := by
  rw [syms, tokens_normalizeEscapes hs, List.map_map]
  exact List.map_congr_left fun t _ => t.sym_normalize

/-- The normal form is determined by what the string stands for. -/
lemma normalizeEscapes_eq_syms {s : Str} (hs : Closed s) :
    normalizeEscapes s = (syms s).flatMap fun x => x.tok.text := by
  rw [normalizeEscapes_eq_flatMap hs, syms, List.flatMap_map]
  exact List.flatMap_congr fun t ht => by rw [Tok.tok_sym (hs t ht)]

lemma Tok.unescaped_normalize (t : Tok) :
    t.normalize.unescaped (fun _ => true) = t.unescaped fun _ => true := by
  cases t with
  | raw c => rfl
  | esc a b =>
      by_cases hsafe : urlCharSafe (x2digitsToNum a b) = true
      · simp [normalize, decodeSafe, hsafe, upper, unescaped]
      · simp [normalize, decodeSafe, hsafe, upper, unescaped, x2digitsToNum_toUpper]

lemma unescape_normalizeEscapes {s : Str} (hs : Closed s) :
    unescape (normalizeEscapes s) = unescape s := by
  rw [unescape, unescapeIf_eq_flatMap, tokens_normalizeEscapes hs, List.flatMap_map, unescape,
    unescapeIf_eq_flatMap]
  exact List.flatMap_congr fun t _ => t.unescaped_normalize

/-- `Url::normalize_escapes` gives two strings one normal form if and only if they stand for the
same; a string in normal form stays as it is, and decoding does not see the difference. -/
theorem normalizeEscapes_canonical (s t : Str) (hs : OnlyEscapes s) (ht : OnlyEscapes t) :
    (normalizeEscapes s = normalizeEscapes t ↔ syms s = syms t) ∧
      normalizeEscapes (normalizeEscapes s) = normalizeEscapes s ∧
      unescape (normalizeEscapes s) = unescape s := by
  refine ⟨⟨fun h => ?_, fun h => ?_⟩, (stable_normalizeEscapes hs.closed).eq,
    unescape_normalizeEscapes hs.closed⟩
  · rw [← syms_normalizeEscapes hs.closed, h, syms_normalizeEscapes ht.closed]
  · rw [normalizeEscapes_eq_syms hs.closed, h, ← normalizeEscapes_eq_syms ht.closed]

theorem normalizeEscapes_canonical_case :
    normalizeEscapes (lit "%7ea%2f") = normalizeEscapes (lit "~%61%2F") ∧
      normalizeEscapes (lit "%7ea%2f") ≠ normalizeEscapes (lit "~a/") := by
  have hsame := (normalizeEscapes_canonical (lit "%7ea%2f") (lit "~%61%2F") (by decide)
    (by decide)).1
  have hdiff := (normalizeEscapes_canonical (lit "%7ea%2f") (lit "~a/") (by decide) (by decide)).1
  rw [Ne, hsame, hdiff]
  decide

end Mycelium
