import Mycelium.Common.Bytes

/-!
# Input streams

A `std::istream` on a text with the state bits that the readers test, and the extraction of
integers.  The extraction skips white space and takes signs and leading zeros, so that a number has
many texts besides the one that is written.
-/

namespace Mycelium

/-! ### Decimal numbers -/

/-- The number that digits stand for, the most significant one first. -/
def decimalValue (ds : Str) : ℕ := Nat.ofDigits 10 (ds.reverse.map fun c => c.toNat - 48)

/-- A number as `operator<<` writes it. -/
def decimal (n : ℕ) : Str :=
  if n = 0 then [0x30] else (Nat.digits 10 n).reverse.map fun d => UInt8.ofNat (48 + d)

/-- A signed number as `operator<<` writes it. -/
def signedDecimal (n : ℤ) : Str := if n < 0 then 0x2D :: decimal n.natAbs else decimal n.natAbs

lemma signedDecimal_natCast (n : ℕ) : signedDecimal n = decimal n := by
  rw [signedDecimal, if_neg (Int.natCast_nonneg n).not_gt, Int.natAbs_natCast]

lemma decimal_ne_nil (n : ℕ) : decimal n ≠ [] := by
  rw [decimal]
  split
  · exact List.cons_ne_nil _ _
  · next h => simpa using Nat.digits_ne_nil_iff_ne_zero.2 h

lemma toNat_digit {d : ℕ} (h : d < 10) : (UInt8.ofNat (48 + d)).toNat = 48 + d := by
  rw [UInt8.toNat_ofNat']
  exact Nat.mod_eq_of_lt (by omega)

lemma isDigit_iff {c : UInt8} : isDigit c ↔ 48 ≤ c.toNat ∧ c.toNat ≤ 57 := by
  simp only [isDigit, Bool.and_eq_true, decide_eq_true_eq, UInt8.le_iff_toNat_le]
  exact Iff.rfl

lemma isDigit_of_mem_decimal {n : ℕ} {c : UInt8} (h : c ∈ decimal n) : isDigit c := by
  rw [decimal] at h
  split at h
  · rw [List.mem_singleton.1 h]
    decide
  · obtain ⟨d, hd, rfl⟩ := List.mem_map.1 h
    have hlt : d < 10 := Nat.digits_lt_base (by norm_num) (List.mem_reverse.1 hd)
    rw [isDigit_iff, toNat_digit hlt]
    omega

lemma decimalValue_decimal (n : ℕ) : decimalValue (decimal n) = n := by
  rw [decimal]
  split
  · next h => rw [h]; rfl
  · have hdigits : ((Nat.digits 10 n).map fun d => (UInt8.ofNat (48 + d)).toNat - 48) =
        Nat.digits 10 n := by
      refine (List.map_congr_left fun d hd => ?_).trans (List.map_id _)
      rw [toNat_digit (Nat.digits_lt_base (by norm_num) hd)]
      exact Nat.add_sub_cancel_left 48 d
    rw [decimalValue, ← List.map_reverse, List.reverse_reverse, List.map_map]
    exact (congrArg _ hdigits).trans (Nat.ofDigits_digits 10 n)

/-- No digits of a number are fewer than those that are written. -/
lemma length_decimal_le {ds : Str} (h : ∀ c ∈ ds, isDigit c) (hne : ds ≠ []) :
    (decimal (decimalValue ds)).length ≤ ds.length := by
  have hlt : decimalValue ds < 10 ^ ds.length := by
    have := @Nat.ofDigits_lt_base_pow_length 10 (ds.reverse.map fun c => c.toNat - 48)
      (by norm_num) (fun d hd => by
        obtain ⟨c, hc, rfl⟩ := List.mem_map.1 hd
        have := isDigit_iff.1 (h c (List.mem_reverse.1 hc))
        omega)
    simpa [decimalValue] using this
  rw [decimal]
  split
  · exact List.length_pos_iff.2 hne
  · rw [List.length_map, List.length_reverse]
    exact (Nat.digits_length_le_iff (by norm_num) _).2 hlt

/-! ### Input streams -/

/-- A `std::istream` on a text, with its state. -/
structure IStream where
  rest : Str
  eofbit : Bool := false
  failbit : Bool := false
deriving DecidableEq, Repr

namespace IStream

/-- `good()`. -/
def good (s : IStream) : Bool := !s.eofbit && !s.failbit

/-- `setstate(failbit)`. -/
def setFail (s : IStream) : IStream := { s with failbit := true }

/-- `peek()`; `none` is EOF. -/
def peek (s : IStream) : Option UInt8 × IStream :=
  if s.good then
    match s.rest with
    | c :: _ => (some c, s)
    | [] => (none, { s with eofbit := true })
  else (none, s.setFail)

/-- `get()`; `none` is EOF. -/
def get (s : IStream) : Option UInt8 × IStream :=
  if s.good then
    match s.rest with
    | c :: t => (some c, { s with rest := t })
    | [] => (none, { s with eofbit := true, failbit := true })
  else (none, s.setFail)

/-- The sign of a number. -/
def sign : Str → Bool × Str
  | [] => (false, [])
  | c :: t => if c = 0x2D then (true, t) else if c = 0x2B then (false, t) else (false, c :: t)

/-- The value of digits with a sign. -/
def signedValue (minus : Bool) (ds : Str) : ℤ :=
  if minus then -(decimalValue ds : ℤ) else decimalValue ds

/-- `s >> n` for a signed integer with a number of bits; `none` when it fails. -/
def readInt (bits : ℕ) (s : IStream) : Option ℤ × IStream :=
  if s.good then
    let t := s.rest.dropWhile isSpace
    if t.isEmpty then (none, { rest := [], eofbit := true, failbit := true })
    else
      let ds := (sign t).2.takeWhile isDigit
      let n := signedValue (sign t).1 ds
      let rest := (sign t).2.dropWhile isDigit
      let s : IStream := { rest := rest, eofbit := rest.isEmpty }
      if ds = [] ∨ n < -2 ^ (bits - 1) ∨ 2 ^ (bits - 1) ≤ n then (none, s.setFail) else (some n, s)
  else (none, s.setFail)

/-- The loop of `read_string`, for `n` characters. -/
def getChars : ℕ → IStream → Str × IStream
  | 0, s => ([], s)
  | n + 1, s =>
      if s.good then
        let (c, s) := s.get
        let (cs, s) := getChars n s
        (c.getD 0xFF :: cs, s)
      else (List.replicate (n + 1) 0, s)

/-! ### Reading what was written -/

variable {s s' : IStream} {c : UInt8} {t : Str} {n : ℕ}

lemma good_mk : good { rest := t } = true := rfl

lemma eq_mk_of_good (h : s.good = true) : s = { rest := s.rest } := by
  obtain ⟨rest, eofbit, failbit⟩ := s
  simp only [good, Bool.and_eq_true, Bool.not_eq_true'] at h
  rw [h.1, h.2]

lemma get_cons : get { rest := c :: t } = (some c, { rest := t }) := rfl

lemma peek_cons : peek { rest := c :: t } = (some c, { rest := c :: t }) := rfl

lemma getChars_append (u : Str) : getChars u.length { rest := u ++ t } = (u, { rest := t }) := by
  induction u with
  | nil => rfl
  | cons c u ih =>
      rw [List.length_cons, getChars, if_pos good_mk, List.cons_append, get_cons]
      simp only [ih, Option.getD_some]

lemma isSpace_of_isDigit (h : isDigit c) : isSpace c = false := by
  have hrange := isDigit_iff.1 h
  rw [Bool.eq_false_iff]
  intro hspace
  simp only [isSpace, Bool.or_eq_true, Bool.and_eq_true, beq_iff_eq, decide_eq_true_eq,
    UInt8.le_iff_toNat_le, ← UInt8.toNat_inj, UInt8.reduceToNat] at hspace
  omega

lemma sign_of_isDigit (h : isDigit c) : sign (c :: t) = (false, c :: t) := by
  have hminus : c ≠ 0x2D := by rintro rfl; exact absurd h (by decide)
  have hplus : c ≠ 0x2B := by rintro rfl; exact absurd h (by decide)
  rw [sign, if_neg hminus, if_neg hplus]

/-- Digits behind a sign are read up to the character that follows them. -/
lemma readInt_of_sign (bits : ℕ) {ds u : Str} (hds : ∀ d ∈ ds, isDigit d) (hne : ds ≠ [])
    (hc : isDigit c = false) (ht : t.dropWhile isSpace = t) (hsign : (sign t).2 = ds ++ c :: u)
    (hlo : -2 ^ (bits - 1) ≤ signedValue (sign t).1 ds)
    (hhi : signedValue (sign t).1 ds < 2 ^ (bits - 1)) :
    readInt bits { rest := t } = (some (signedValue (sign t).1 ds), { rest := c :: u }) := by
  have htne : t.isEmpty = false := by
    rcases t with _ | ⟨a, t⟩
    · rw [sign] at hsign
      simp at hsign
    · rfl
  have htake : (ds ++ c :: u).takeWhile isDigit = ds := by
    rw [List.takeWhile_append_of_pos hds, List.takeWhile_cons_of_neg (by simp [hc]),
      List.append_nil]
  have hdrop : (ds ++ c :: u).dropWhile isDigit = c :: u := by
    rw [List.dropWhile_append_of_pos hds, List.dropWhile_cons_of_neg (by simp [hc])]
  have hrange : ¬(ds = [] ∨ signedValue (sign t).1 ds < -2 ^ (bits - 1) ∨
      2 ^ (bits - 1) ≤ signedValue (sign t).1 ds) := by
    rintro (h | h | h)
    · exact hne h
    · exact absurd hlo (not_le.2 h)
    · exact absurd hhi (not_lt.2 h)
  simp only [readInt, if_pos good_mk, ht, htne, hsign, htake, hdrop, if_neg hrange,
    List.isEmpty_cons]
  rfl

section Decimal

variable {n : ℤ} {u : Str}

lemma signedValue_decimal : signedValue (decide (n < 0)) (decimal n.natAbs) = n := by
  rw [signedValue, decimalValue_decimal]
  by_cases hn : n < 0
  · rw [if_pos (decide_eq_true hn)]
    omega
  · rw [if_neg (by simpa using hn)]
    omega

/-- The text of a number starts with its sign and its digits, and not with white space. -/
lemma sign_signedDecimal :
    sign (signedDecimal n ++ u) = (decide (n < 0), decimal n.natAbs ++ u) ∧
      (signedDecimal n ++ u).dropWhile isSpace = signedDecimal n ++ u := by
  obtain ⟨d, ds, hd⟩ := List.exists_cons_of_ne_nil (decimal_ne_nil n.natAbs)
  have hdigit : isDigit d := isDigit_of_mem_decimal (hd ▸ List.mem_cons_self)
  rw [signedDecimal]
  by_cases hn : n < 0
  · rw [if_pos hn, decide_eq_true hn, List.cons_append, sign, if_pos rfl]
    exact ⟨rfl, List.dropWhile_cons_of_neg (by decide)⟩
  · rw [if_neg hn, decide_eq_false hn, hd, List.cons_append, sign_of_isDigit hdigit]
    exact ⟨rfl, List.dropWhile_cons_of_neg (by simp [isSpace_of_isDigit hdigit])⟩

lemma readInt_signedDecimal (bits : ℕ) (hlo : -2 ^ (bits - 1) ≤ n) (hhi : n < 2 ^ (bits - 1))
    (hc : isDigit c = false) :
    readInt bits { rest := signedDecimal n ++ c :: u } = (some n, { rest := c :: u }) := by
  obtain ⟨hsign, hspace⟩ := sign_signedDecimal (n := n) (u := c :: u)
  have hvalue : signedValue (sign (signedDecimal n ++ c :: u)).1 (decimal n.natAbs) = n := by
    rw [hsign]
    exact signedValue_decimal
  have hread := readInt_of_sign bits (fun d => isDigit_of_mem_decimal) (decimal_ne_nil n.natAbs) hc
    hspace (congrArg Prod.snd hsign) (by rwa [hvalue]) (by rwa [hvalue])
  rwa [hvalue] at hread

end Decimal

/-! ### What was read -/

/-- The stream went on from `s` to `s'` over at least `n` characters, and nothing failed. -/
structure Past (s s' : IStream) (n : ℕ) : Prop where
  ok : s'.failbit = false
  suffix : s'.rest <:+ s.rest
  length : n + s'.rest.length ≤ s.rest.length

lemma Past.trans {s₁ s₂ s₃ : IStream} {m : ℕ} (h : Past s₁ s₂ n) (h' : Past s₂ s₃ m) :
    Past s₁ s₃ (n + m) where
  ok := h'.ok
  suffix := h'.suffix.trans h.suffix
  length := by
    have := h.length
    have := h'.length
    omega

lemma get_eq_some (h : s.get = (some c, s')) :
    s.rest = c :: s'.rest ∧ s'.good = true := by
  rw [get] at h
  split at h
  · next hgood =>
      split at h
      · next d t hrest =>
          obtain ⟨hd, rfl⟩ := Prod.mk.inj h
          obtain rfl := Option.some.inj hd
          exact ⟨hrest, hgood⟩
      · simp at h
  · simp at h

lemma failbit_of_good (h : s.good = true) : s.failbit = false := by
  simp only [good, Bool.and_eq_true, Bool.not_eq_true'] at h
  exact h.2

lemma past_get (h : s.get = (some c, s')) : Past s s' 1 where
  ok := failbit_of_good (get_eq_some h).2
  suffix := by rw [(get_eq_some h).1]; exact List.suffix_cons _ _
  length := by rw [(get_eq_some h).1, List.length_cons, Nat.add_comm]

/-- The character that was looked at is the one that is taken. -/
lemma get_of_peek (h : s.peek = (some c, s')) : s' = s ∧ s.get = (some c, s.get.2) := by
  rw [peek] at h
  split at h
  · next hgood =>
      split at h
      · next hrest =>
          obtain ⟨hc, rfl⟩ := Prod.mk.inj h
          refine ⟨rfl, ?_⟩
          rw [get, if_pos hgood, hrest, Option.some.inj hc]
      · simp at h
  · simp at h

lemma past_peek (hgood : s.good = true) : Past s s.peek.2 0 := by
  have hrest : s.peek.2.rest = s.rest ∧ s.peek.2.failbit = s.failbit := by
    rw [peek, if_pos hgood]
    split <;> exact ⟨rfl, rfl⟩
  refine ⟨hrest.2.trans (failbit_of_good hgood), ?_, ?_⟩
  · rw [hrest.1]
  · rw [hrest.1, Nat.zero_add]

lemma past_append {u : Str} (hgood : s'.good = true) (h : s.rest = u ++ s'.rest) :
    Past s s' u.length where
  ok := failbit_of_good hgood
  suffix := ⟨u, h.symm⟩
  length := by rw [h, List.length_append]

lemma failbit_of_get_none (h : s.get = (none, s')) : s'.failbit = true := by
  rw [get] at h
  split at h
  · split at h
    · simp at h
    · rw [← (Prod.mk.inj h).2]
  · rw [← (Prod.mk.inj h).2, setFail]

lemma good_of_failbit (h : s.failbit = true) : s.good = false := by simp [good, h]

lemma getChars_of_not_good (h : s.good = false) : (s.getChars n).2 = s := by
  cases n with
  | zero => rfl
  | succ n => rw [getChars, if_neg (by simp [h])]

/-- Characters that were read without a failure are those of the text. -/
lemma getChars_ok (hgood : s.good = true) (hok : (s.getChars n).2.failbit = false) :
    s.rest = (s.getChars n).1 ++ (s.getChars n).2.rest ∧ (s.getChars n).1.length = n ∧
      (s.getChars n).2.good = true := by
  induction n generalizing s with
  | zero => exact ⟨rfl, rfl, hgood⟩
  | succ n ih =>
      rcases hget : s.get with ⟨_ | c, s₁⟩
      · have hfail := failbit_of_get_none hget
        rw [getChars, if_pos hgood, hget] at hok
        simp only [getChars_of_not_good (good_of_failbit hfail), hfail] at hok
        exact absurd hok (by decide)
      · obtain ⟨hrest, hgood₁⟩ := get_eq_some hget
        rw [getChars, if_pos hgood, hget] at hok ⊢
        obtain ⟨htext, hlength, hgood'⟩ := ih hgood₁ hok
        simp only [Option.getD_some, List.cons_append, List.length_cons, hlength]
        exact ⟨by rw [hrest, ← htext], trivial, hgood'⟩

lemma sign_spec (t : Str) : (sign t).2 <:+ t ∧ (sign t).2.length + (sign t).1.toNat ≤ t.length := by
  cases t with
  | nil => exact ⟨List.suffix_rfl, le_rfl⟩
  | cons c t =>
      rw [sign]
      split
      · exact ⟨List.suffix_cons c t, le_rfl⟩
      · split
        · exact ⟨List.suffix_cons c t, Nat.le_succ _⟩
        · exact ⟨List.suffix_rfl, le_rfl⟩

lemma length_signedDecimal_le (minus : Bool) {ds : Str} (hds : ∀ d ∈ ds, isDigit d)
    (hne : ds ≠ []) : (signedDecimal (signedValue minus ds)).length ≤ ds.length + minus.toNat := by
  have hle := length_decimal_le hds hne
  have habs : (signedValue minus ds).natAbs = decimalValue ds := by
    rw [signedValue]
    split <;> simp
  rw [signedDecimal, habs]
  cases minus with
  | false =>
      rw [if_neg (by simp [signedValue])]
      exact hle
  | true =>
      split
      · exact Nat.succ_le_succ hle
      · exact hle.trans (Nat.le_succ _)

lemma readInt_ok {bits : ℕ} {v : ℤ} (h : s.readInt bits = (some v, s')) :
    Past s s' (signedDecimal v).length ∧ -2 ^ (bits - 1) ≤ v ∧ v < 2 ^ (bits - 1) := by
  rw [readInt] at h
  split at h
  · simp only at h
    split at h
    · simp at h
    · split at h
      · simp at h
      · next hrange =>
          obtain ⟨hv, rfl⟩ := Prod.mk.inj h
          obtain rfl := Option.some.inj hv
          simp only [not_or, not_lt, not_le] at hrange
          obtain ⟨hne, hlo, hhi⟩ := hrange
          obtain ⟨hsuffix, hlength⟩ := sign_spec (s.rest.dropWhile isSpace)
          have hspace : s.rest.dropWhile isSpace <:+ s.rest := List.dropWhile_suffix _
          have hdigits := List.takeWhile_append_dropWhile
            (p := isDigit) (l := (sign (s.rest.dropWhile isSpace)).2)
          refine ⟨⟨rfl, ((List.dropWhile_suffix _).trans hsuffix).trans hspace, ?_⟩, hlo, hhi⟩
          have hle := length_signedDecimal_le (sign (s.rest.dropWhile isSpace)).1
            (fun d hd => List.mem_takeWhile_imp hd) hne
          have htext := congrArg List.length hdigits
          rw [List.length_append] at htext
          have := hspace.length_le
          simp only
          omega
  · simp at h

end IStream

end Mycelium
