import Mycelium.Common.Utf8

/-!
# UTF-16

The code units of a text, as the library for Unicode keeps it, and the way back.  A text has no more
code units than its encoding in UTF-8 has bytes.
-/

namespace Mycelium

/-- The code units of a code point: itself, or two surrogates. -/
def utf16Char (c : Char) : List UInt16 :=
  if c.toNat < 0x10000 then [UInt16.ofNat c.toNat]
  else
    [UInt16.ofNat (0xD800 + (c.toNat - 0x10000) / 0x400),
      UInt16.ofNat (0xDC00 + (c.toNat - 0x10000) % 0x400)]

/-- The code units of a text. -/
def utf16 (cs : List Char) : List UInt16 := cs.flatMap utf16Char

/-- The text of a list of code units, where a high surrogate is followed by a low one. -/
def decodeUtf16 : List UInt16 → List Char
  | [] => []
  | [u] => [Char.ofNat u.toNat]
  | u :: v :: s =>
      if 0xD800 ≤ u.toNat ∧ u.toNat < 0xDC00 then
        Char.ofNat (0x10000 + (u.toNat - 0xD800) * 0x400 + (v.toNat - 0xDC00)) :: decodeUtf16 s
      else Char.ofNat u.toNat :: decodeUtf16 (v :: s)

/-- The text of an encoding in UTF-8; nothing for other bytes. -/
def decodeUtf8 (s : Str) : List Char := ((String.fromUTF8? s.toByteArray).map String.toList).getD []

@[simp] lemma utf16_nil : utf16 [] = [] := rfl

@[simp] lemma utf16_cons (c : Char) (cs : List Char) :
    utf16 (c :: cs) = utf16Char c ++ utf16 cs := rfl

lemma decodeUtf16_append (c : Char) (s : List UInt16) :
    decodeUtf16 (utf16Char c ++ s) = c :: decodeUtf16 s := by
  have hvalid := toNat_valid c
  by_cases hc : c.toNat < 0x10000
  · have hunit : (UInt16.ofNat c.toNat).toNat = c.toNat := UInt16.toNat_ofNat_of_lt' hc
    rw [utf16Char, if_pos hc, List.singleton_append]
    cases s with
    | nil => simp only [decodeUtf16, hunit, Char.ofNat_toNat]
    | cons v s => rw [decodeUtf16, if_neg (by omega), hunit, Char.ofNat_toNat]
  · have hhigh : (UInt16.ofNat (0xD800 + (c.toNat - 0x10000) / 0x400)).toNat
        = 0xD800 + (c.toNat - 0x10000) / 0x400 := UInt16.toNat_ofNat_of_lt' (by
      show _ < 0x10000
      omega)
    have hlow : (UInt16.ofNat (0xDC00 + (c.toNat - 0x10000) % 0x400)).toNat
        = 0xDC00 + (c.toNat - 0x10000) % 0x400 := UInt16.toNat_ofNat_of_lt' (by
      show _ < 0x10000
      omega)
    have hback : 0x10000 + (0xD800 + (c.toNat - 0x10000) / 0x400 - 0xD800) * 0x400
        + (0xDC00 + (c.toNat - 0x10000) % 0x400 - 0xDC00) = c.toNat := by omega
    rw [utf16Char, if_neg hc, List.cons_append, List.singleton_append, decodeUtf16, hhigh, hlow,
      if_pos (by omega), hback, Char.ofNat_toNat]

@[simp] lemma decodeUtf16_utf16 (cs : List Char) : decodeUtf16 (utf16 cs) = cs := by
  induction cs with
  | nil => rfl
  | cons c cs ih => rw [utf16_cons, decodeUtf16_append, ih]

@[simp] lemma decodeUtf8_utf8 (cs : List Char) : decodeUtf8 (utf8 cs) = cs := by
  have hvalid : (utf8 cs).toByteArray.IsValidUTF8 := ⟨cs, rfl⟩
  have hstring : String.fromUTF8 (utf8 cs).toByteArray hvalid = String.ofList cs :=
    String.toByteArray_inj.1 String.toByteArray_ofList.symm
  rw [decodeUtf8, String.fromUTF8?, dif_pos hvalid, hstring]
  exact String.toList_ofList

lemma length_utf16_le (cs : List Char) : (utf16 cs).length ≤ (utf8 cs).length := by
  induction cs with
  | nil => exact le_refl _
  | cons c cs ih =>
      have hchar : (utf16Char c).length ≤ (String.utf8EncodeChar c).length := by
        have hpos := List.length_pos_iff.2 (String.utf8EncodeChar_ne_nil (c := c))
        by_cases hc : c.toNat < 0x10000
        · rw [utf16Char, if_pos hc]
          exact hpos
        · have hv : ¬c.val.toNat ≤ 65535 := by
            rw [Char.toNat_val]
            omega
          rw [utf16Char, if_neg hc]
          simp only [String.utf8EncodeChar]
          rw [if_neg (by omega), if_neg (by omega), if_neg hv]
          simp
      rw [utf16_cons, utf8_cons, List.length_append, List.length_append]
      exact Nat.add_le_add hchar ih

end Mycelium
