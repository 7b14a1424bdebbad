import Mycelium.Common.Utf8

/-!
# The filter of control characters

The local indexer removes the ASCII control characters other than line breaks from the text of a
document.  There are two of it: one in C++, whose `char` has a sign, and one in Python, which
compares strings of one byte.  Both work on the bytes of a text in UTF-8.
-/

namespace Mycelium

/-- A plain `char`, which has a sign. -/
def signedChar (c : UInt8) : ℤ := if c < 0x80 then c.toNat else c.toNat - 256

namespace LocalIndexer

/-- `*i <= 0x9 || (*i >= 0xE && *i <= 0x1F) || *i == 0x7F`. -/
def skips (i : UInt8) : Bool :=
  let i := signedChar i
  i ≤ 0x9 || (0xE ≤ i && i ≤ 0x1F) || i == 0x7F

/-- `filter_ascii_control` of `local_indexer.cc`; the result is appended to `out`. -/
def filterAsciiControl (input out : Str) : Str :=
  input.foldl (fun out i => if skips i then out else out ++ [i]) out

/-- The condition of the filter of `local_indexer.py`. -/
def keepsPy (x : UInt8) : Bool := (0x9 < x && x < 0xE) || (0x1F < x && x != 0x7F)

/-- `filter_ascii_control` of `local_indexer.py`. -/
def filterAsciiControlPy (s : Str) : Str := s.filter keepsPy

/-- The code points that are to be removed. -/
def isControl (c : Char) : Bool :=
  c.toNat ≤ 0x9 || (0xE ≤ c.toNat && c.toNat ≤ 0x1F) || c.toNat == 0x7F

/-! ### The filters on the bytes of a code point -/

lemma filterAsciiControl_eq (input out : Str) :
    filterAsciiControl input out = out ++ input.filter (!skips ·) := by
  rw [filterAsciiControl]
  induction input generalizing out with
  | nil => simp
  | cons i input ih =>
      rw [List.foldl_cons, ih]
      cases hi : skips i <;> simp [hi]

/-- The bytes with the highest bit set are negative. -/
lemma skips_of_le {b : UInt8} (h : 0x80 ≤ b) : skips b = true := by
  have hlt := b.toNat_lt
  have hneg : signedChar b ≤ 0x9 := by
    rw [signedChar, if_neg (by simpa using h)]
    omega
  simp [skips, hneg]

lemma keepsPy_of_le {b : UInt8} (h : 0x80 ≤ b) : keepsPy b = true := by
  have hlow : (0x1F : UInt8) < 0x80 := by decide
  have hhigh : 0x1F < b := UInt8.lt_of_lt_of_le hlow h
  have hne : b ≠ 0x7F := by
    rintro rfl
    exact absurd h (by decide)
  simp [keepsPy, hhigh, hne]

/-- Below 0x80 both filters look at the code point. -/
lemma filters_ascii {c : Char} (h : c.toNat < 0x80) :
    skips (UInt8.ofNat c.toNat) = isControl c ∧ keepsPy (UInt8.ofNat c.toNat) = !isControl c := by
  have htable : ∀ n < 0x80,
      skips (UInt8.ofNat n) = (n ≤ 0x9 || (0xE ≤ n && n ≤ 0x1F) || n == 0x7F) ∧
      keepsPy (UInt8.ofNat n) = !(n ≤ 0x9 || (0xE ≤ n && n ≤ 0x1F) || n == 0x7F) := by decide
  exact htable c.toNat h

lemma isControl_of_le {c : Char} (h : 0x80 ≤ c.toNat) : isControl c = false := by
  simp only [isControl, Bool.or_eq_false_iff, Bool.and_eq_false_iff, decide_eq_false_iff_not,
    beq_eq_false_iff_ne]
  omega

lemma filterPy_utf8EncodeChar (c : Char) :
    (String.utf8EncodeChar c).filter keepsPy =
      if isControl c then [] else String.utf8EncodeChar c := by
  rcases Nat.lt_or_ge c.toNat 0x80 with h | h
  · rw [utf8EncodeChar_of_lt h, List.filter_singleton, (filters_ascii h).2]
    cases isControl c <;> rfl
  · rw [isControl_of_le h, if_neg (by simp), List.filter_eq_self]
    exact fun b hb => keepsPy_of_le (le_of_mem_utf8EncodeChar h hb)

lemma filter_utf8EncodeChar (c : Char) :
    (String.utf8EncodeChar c).filter (!skips ·) =
      if isControl c || 0x80 ≤ c.toNat then [] else String.utf8EncodeChar c := by
  rcases Nat.lt_or_ge c.toNat 0x80 with h | h
  · rw [utf8EncodeChar_of_lt h, List.filter_singleton, (filters_ascii h).1]
    cases isControl c <;> simp [h]
  · rw [if_pos (by simp [h]), List.filter_eq_nil_iff]
    intro b hb
    simp [skips_of_le (le_of_mem_utf8EncodeChar h hb)]

/-! ### The filters on a text -/

/-- A filter that removes all bytes of a code point or none removes code points. -/
lemma filter_utf8 {p : UInt8 → Bool} {q : Char → Bool}
    (h : ∀ c, (String.utf8EncodeChar c).filter p = if q c then [] else String.utf8EncodeChar c)
    (cs : List Char) : (utf8 cs).filter p = utf8 (cs.filter (!q ·)) := by
  induction cs with
  | nil => rfl
  | cons c cs ih =>
      rw [utf8_cons, List.filter_append, h, ih]
      cases hq : q c <;> simp [hq]

/-- The Python filter removes the control characters.  The C++ filter removes every code point that
is not ASCII as well. -/
theorem filterAsciiControl_utf8_iff (cs : List Char) :
    filterAsciiControlPy (utf8 cs) = utf8 (cs.filter (!isControl ·)) ∧
      (filterAsciiControl (utf8 cs) [] = utf8 (cs.filter (!isControl ·)) ↔
        ∀ c ∈ cs, c.toNat < 0x80) := by
  refine ⟨filter_utf8 filterPy_utf8EncodeChar cs, ?_⟩
  rw [filterAsciiControl_eq, List.nil_append]
  constructor
  · intro h c hc
    by_contra hascii
    have hhigh : 0x80 ≤ c.toNat := Nat.not_lt.1 hascii
    -- the bytes of `c` would be kept
    obtain ⟨b, hb⟩ := List.exists_mem_of_ne_nil _ (String.utf8EncodeChar_ne_nil)
    have hmem : b ∈ utf8 (cs.filter (!isControl ·)) :=
      List.mem_flatMap.2 ⟨c, List.mem_filter.2 ⟨hc, by simp [isControl_of_le hhigh]⟩, hb⟩
    rw [← h, List.mem_filter, skips_of_le (le_of_mem_utf8EncodeChar hhigh hb)] at hmem
    exact absurd hmem.2 (by simp)
  · intro h
    rw [filter_utf8 filter_utf8EncodeChar]
    refine congrArg utf8 (List.filter_congr fun c hc => ?_)
    simp [h c hc]

/-- The C++ filter removes a letter with an accent. -/
theorem filterAsciiControl_accent :
    filterAsciiControl (utf8 [Char.ofNat 0x61, Char.ofNat 0xE9]) [] = utf8 [Char.ofNat 0x61] ∧
      filterAsciiControlPy (utf8 [Char.ofNat 0x61, Char.ofNat 0xE9]) =
        utf8 [Char.ofNat 0x61, Char.ofNat 0xE9] := by decide

end LocalIndexer

end Mycelium
