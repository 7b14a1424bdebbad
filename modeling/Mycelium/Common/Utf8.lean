import Mycelium.Common.Bytes

/-!
# UTF-8

The encoding of a text, and what the filters on bytes see of it: a code point below 0x80 is one byte
with this value, and every byte of another code point has its highest bit set.
-/

namespace Mycelium

/-- The UTF-8 encoding of a text. -/
def utf8 (cs : List Char) : Str := cs.flatMap String.utf8EncodeChar

@[simp] lemma utf8_nil : utf8 [] = [] := rfl

@[simp] lemma utf8_cons (c : Char) (cs : List Char) :
    utf8 (c :: cs) = String.utf8EncodeChar c ++ utf8 cs := rfl

lemma utf8EncodeChar_of_lt {c : Char} (h : c.toNat < 0x80) :
    String.utf8EncodeChar c = [UInt8.ofNat c.toNat] :=
  if_pos (show c.val.toNat ≤ 127 from Nat.le_of_lt_succ h)

lemma le_ofNat {n : ℕ} (hn : 0x80 ≤ n) (hlt : n < 0x100) : (0x80 : UInt8) ≤ UInt8.ofNat n := by
  rw [UInt8.le_iff_toNat_le, UInt8.toNat_ofNat_of_lt' hlt]
  exact hn

lemma le_of_mem_utf8EncodeChar {c : Char} (h : 0x80 ≤ c.toNat) {b : UInt8}
    (hb : b ∈ String.utf8EncodeChar c) : 0x80 ≤ b := by
  have hv : ¬c.val.toNat ≤ 127 := Nat.not_le.2 h
  simp only [String.utf8EncodeChar, if_neg hv] at hb
  -- the first byte of a code point has a mark of its own, the others have 0x80
  split at hb
  · simp only [List.mem_cons, List.not_mem_nil, or_false] at hb
    rcases hb with rfl | rfl <;> exact le_ofNat (by omega) (by omega)
  · split at hb
    · simp only [List.mem_cons, List.not_mem_nil, or_false] at hb
      rcases hb with rfl | rfl | rfl <;> exact le_ofNat (by omega) (by omega)
    · simp only [List.mem_cons, List.not_mem_nil, or_false] at hb
      rcases hb with rfl | rfl | rfl | rfl <;> exact le_ofNat (by omega) (by omega)

/-! ### The bytes of a code point -/

lemma toNat_valid (c : Char) : c.toNat < 0xD800 ∨ 0xDFFF < c.toNat ∧ c.toNat < 0x110000 := c.valid

/-- A number that is no surrogate is that of a code point. -/
lemma exists_toNat_eq {n : ℕ} (h : n < 0xD800 ∨ 0xDFFF < n ∧ n < 0x110000) :
    ∃ ch : Char, ch.toNat = n :=
  ⟨Char.ofNat n, by rw [Char.toNat_ofNat, if_pos h]⟩

lemma eq_ofNat_iff {b : UInt8} {n : ℕ} (h : n < 0x100) : UInt8.ofNat n = b ↔ b.toNat = n := by
  rw [← UInt8.toNat_inj, UInt8.toNat_ofNat_of_lt' h, eq_comm]

section

variable {ch : Char} {a b c d : UInt8}

lemma utf8EncodeChar_eq_one_iff : String.utf8EncodeChar ch = [a] ↔
    ch.toNat < 0x80 ∧ a.toNat = ch.toNat := by
  simp only [String.utf8EncodeChar, ← Char.toNat_val]
  split_ifs with h1 h2 h3
  · simp only [List.cons.injEq, and_true, eq_ofNat_iff (show ch.val.toNat < 0x100 by omega)]
    omega
  all_goals
    simp only [List.cons.injEq, reduceCtorEq, and_false, false_iff]
    omega

lemma utf8EncodeChar_eq_two_iff : String.utf8EncodeChar ch = [a, b] ↔
    (0x80 ≤ ch.toNat ∧ ch.toNat < 0x800) ∧
      a.toNat = ch.toNat / 0x40 + 0xC0 ∧ b.toNat = ch.toNat % 0x40 + 0x80 := by
  simp only [String.utf8EncodeChar, ← Char.toNat_val]
  split_ifs with h1 h2 h3
  all_goals
    simp only [List.cons.injEq, reduceCtorEq, and_false, false_iff, and_true]
  · omega
  · rw [eq_ofNat_iff (by omega), eq_ofNat_iff (by omega)]
    omega
  all_goals omega

lemma utf8EncodeChar_eq_three_iff : String.utf8EncodeChar ch = [a, b, c] ↔
    (0x800 ≤ ch.toNat ∧ ch.toNat < 0x10000) ∧ a.toNat = ch.toNat / 0x1000 + 0xE0 ∧
      b.toNat = ch.toNat / 0x40 % 0x40 + 0x80 ∧ c.toNat = ch.toNat % 0x40 + 0x80 := by
  simp only [String.utf8EncodeChar, ← Char.toNat_val]
  split_ifs with h1 h2 h3
  all_goals
    simp only [List.cons.injEq, reduceCtorEq, and_false, false_iff, and_true]
  · omega
  · omega
  · rw [eq_ofNat_iff (by omega), eq_ofNat_iff (by omega), eq_ofNat_iff (by omega)]
    omega
  · omega

lemma utf8EncodeChar_eq_four_iff : String.utf8EncodeChar ch = [a, b, c, d] ↔
    0x10000 ≤ ch.toNat ∧ a.toNat = ch.toNat / 0x40000 + 0xF0 ∧
      b.toNat = ch.toNat / 0x1000 % 0x40 + 0x80 ∧ c.toNat = ch.toNat / 0x40 % 0x40 + 0x80 ∧
      d.toNat = ch.toNat % 0x40 + 0x80 := by
  have hvalid := toNat_valid ch
  simp only [String.utf8EncodeChar, ← Char.toNat_val] at hvalid ⊢
  split_ifs with h1 h2 h3
  all_goals
    simp only [List.cons.injEq, reduceCtorEq, and_false, false_iff, and_true]
  · omega
  · omega
  · omega
  · rw [eq_ofNat_iff (by omega), eq_ofNat_iff (by omega), eq_ofNat_iff (by omega),
      eq_ofNat_iff (by omega)]
    omega

end

end Mycelium
