import Mycelium.Dist.LocalIndexer
import Mycelium.Lib.Regex

/-!
# The check for UTF-8

The indexer keeps the text of a document when `valid_utf8` accepts it.  The check is a regular
expression: a row of byte ranges for each shape of an encoded code point, repeated to the end of the
text.  The rows leave out the longer encodings of a code point, the surrogates, what is beyond
0x10FFFF, and most of the control characters.  They leave out nothing else, and in particular accept
every text that has gone through the filter of control characters.
-/

namespace Mycelium

open Lib

namespace LocalIndexer

/-- A class of bytes, by its ranges. -/
abbrev ByteClass := List (UInt8 × UInt8)

def ByteClass.has (d : ByteClass) (c : UInt8) : Bool := d.any fun r => r.1 ≤ c && c ≤ r.2

/-- The alternatives in `valid_utf8_re`. -/
def validUtf8Rows : List (List ByteClass) :=
  let tail : ByteClass := [(0x80, 0xBF)]
  [ [[(0x07, 0x0D), (0x20, 0x7E)]],
    [[(0xC2, 0xDF)], tail],
    [[(0xE0, 0xE0)], [(0xA0, 0xBF)], tail],
    [[(0xE1, 0xEC), (0xEE, 0xEE), (0xEF, 0xEF)], tail, tail],
    [[(0xED, 0xED)], [(0x80, 0x9F)], tail],
    [[(0xF0, 0xF0)], [(0x90, 0xBF)], tail, tail],
    [[(0xF1, 0xF3)], tail, tail, tail],
    [[(0xF4, 0xF4)], [(0x80, 0x8F)], tail, tail] ]

/-- `valid_utf8_re`. -/
def validUtf8Re : Regex UInt8 :=
  .star (.any (validUtf8Rows.map fun row => .cat (row.map fun d => .cls d.has)))

/-- A string of Python, with or without an encoding. -/
inductive PyString where
  | unicode (cs : List Char)
  | str (s : Str)

/-- `valid_utf8`. -/
def validUtf8 : PyString → Bool
  | .unicode _ => true
  | .str s => validUtf8Re.accepts s

/-- The code points that the check lets through: all but most of the ASCII control characters. -/
def Allowed (c : Char) : Prop :=
  c.toNat < 0x80 → (0x07 ≤ c.toNat ∧ c.toNat ≤ 0x0D) ∨ (0x20 ≤ c.toNat ∧ c.toNat ≤ 0x7E)

/-! ### A row and a code point -/

/-- The words of the rows. -/
def Row (w : Str) : Prop :=
  ∃ row ∈ validUtf8Rows, List.Forall₂ (fun d c => ByteClass.has d c = true) row w

section

variable {w : Str} {a b c d : UInt8}

lemma has_cons_iff {r : UInt8 × UInt8} {l : ByteClass} :
    ByteClass.has (r :: l) a = true ↔
      (r.1.toNat ≤ a.toNat ∧ a.toNat ≤ r.2.toNat) ∨ ByteClass.has l a = true := by
  simp only [ByteClass.has, List.any_cons, Bool.or_eq_true, Bool.and_eq_true, decide_eq_true_eq,
    UInt8.le_iff_toNat_le]

lemma has_nil : ByteClass.has [] a = false := rfl

lemma row_one_iff : Row [a] ↔
    (0x07 ≤ a.toNat ∧ a.toNat ≤ 0x0D) ∨ (0x20 ≤ a.toNat ∧ a.toNat ≤ 0x7E) := by
  simp [Row, validUtf8Rows, has_cons_iff, has_nil]

lemma row_two_iff : Row [a, b] ↔
    (0xC2 ≤ a.toNat ∧ a.toNat ≤ 0xDF) ∧ (0x80 ≤ b.toNat ∧ b.toNat ≤ 0xBF) := by
  simp [Row, validUtf8Rows, has_cons_iff, has_nil]

lemma row_three_iff : Row [a, b, c] ↔
    (0xE0 ≤ a.toNat ∧ a.toNat ≤ 0xEF) ∧ (0x80 ≤ b.toNat ∧ b.toNat ≤ 0xBF) ∧
      (0x80 ≤ c.toNat ∧ c.toNat ≤ 0xBF) ∧
      (a.toNat = 0xE0 → 0xA0 ≤ b.toNat) ∧ (a.toNat = 0xED → b.toNat ≤ 0x9F) := by
  simp only [Row, validUtf8Rows, List.mem_cons, List.not_mem_nil, or_false, exists_eq_or_imp,
    List.forall₂_cons, has_cons_iff, UInt8.reduceToNat, has_nil, Bool.false_eq_true,
    List.forall₂_nil_left_iff, reduceCtorEq, and_false, List.cons_ne_self,
    List.forall₂_nil_right_iff, and_true, ↓existsAndEq, or_self, false_or]
  omega

lemma row_four_iff : Row [a, b, c, d] ↔
    (0xF0 ≤ a.toNat ∧ a.toNat ≤ 0xF4) ∧ (0x80 ≤ b.toNat ∧ b.toNat ≤ 0xBF) ∧
      (0x80 ≤ c.toNat ∧ c.toNat ≤ 0xBF) ∧ (0x80 ≤ d.toNat ∧ d.toNat ≤ 0xBF) ∧
      (a.toNat = 0xF0 → 0x90 ≤ b.toNat) ∧ (a.toNat = 0xF4 → b.toNat ≤ 0x8F) := by
  simp only [Row, validUtf8Rows, List.mem_cons, List.not_mem_nil, or_false, exists_eq_or_imp,
    List.forall₂_cons, has_cons_iff, UInt8.reduceToNat, has_nil, Bool.false_eq_true,
    List.forall₂_nil_left_iff, reduceCtorEq, and_false, List.cons_ne_self,
    List.forall₂_nil_right_iff, and_true, ↓existsAndEq, true_and, false_or]
  omega

lemma length_of_row (h : Row w) : 1 ≤ w.length ∧ w.length ≤ 4 := by
  obtain ⟨row, hrow, hw⟩ := h
  have hrows : ∀ row ∈ validUtf8Rows, 1 ≤ row.length ∧ row.length ≤ 4 := by decide
  rw [← hw.length_eq]
  exact hrows row hrow

/-- The bytes of a row give a code point. -/
lemma exists_char_of_row (h : Row w) : ∃ ch, String.utf8EncodeChar ch = w ∧ Allowed ch := by
  have hlen := length_of_row h
  rcases w with _ | ⟨a, _ | ⟨b, _ | ⟨c, _ | ⟨d, _ | ⟨e, w⟩⟩⟩⟩⟩
  · simp at hlen
  · rw [row_one_iff] at h
    obtain ⟨ch, hch⟩ := exists_toNat_eq (n := a.toNat) (by omega)
    exact ⟨ch, utf8EncodeChar_eq_one_iff.2 (by omega), fun _ => by omega⟩
  · rw [row_two_iff] at h
    obtain ⟨ch, hch⟩ := exists_toNat_eq
      (n := (a.toNat - 0xC0) * 0x40 + (b.toNat - 0x80)) (by omega)
    exact ⟨ch, utf8EncodeChar_eq_two_iff.2 (by omega), fun hlt => by omega⟩
  · rw [row_three_iff] at h
    obtain ⟨ch, hch⟩ := exists_toNat_eq
      (n := (a.toNat - 0xE0) * 0x1000 + (b.toNat - 0x80) * 0x40 + (c.toNat - 0x80)) (by omega)
    exact ⟨ch, utf8EncodeChar_eq_three_iff.2 (by omega), fun hlt => by omega⟩
  · rw [row_four_iff] at h
    obtain ⟨ch, hch⟩ := exists_toNat_eq
      (n := (a.toNat - 0xF0) * 0x40000 + (b.toNat - 0x80) * 0x1000 + (c.toNat - 0x80) * 0x40
        + (d.toNat - 0x80)) (by omega)
    exact ⟨ch, utf8EncodeChar_eq_four_iff.2 (by omega), fun hlt => by omega⟩
  · simp only [List.length_cons] at hlen
    omega

/-- The bytes of a code point are those of a row. -/
lemma row_utf8EncodeChar {ch : Char} (h : Allowed ch) : Row (String.utf8EncodeChar ch) := by
  have hvalid := toNat_valid ch
  have hlen := String.length_utf8EncodeChar ch
  obtain ⟨w, hw⟩ : ∃ w, String.utf8EncodeChar ch = w := ⟨_, rfl⟩
  have hle := ch.utf8Size_le_four
  rw [hw] at hlen ⊢
  rcases w with _ | ⟨a, _ | ⟨b, _ | ⟨c, _ | ⟨d, _ | ⟨e, w⟩⟩⟩⟩⟩
  · exact absurd hw String.utf8EncodeChar_ne_nil
  · have ha := utf8EncodeChar_eq_one_iff.1 hw
    have hallowed := h ha.1
    rw [row_one_iff]
    omega
  · have hab := utf8EncodeChar_eq_two_iff.1 hw
    rw [row_two_iff]
    omega
  · have habc := utf8EncodeChar_eq_three_iff.1 hw
    rw [row_three_iff]
    omega
  · have habcd := utf8EncodeChar_eq_four_iff.1 hw
    rw [row_four_iff]
    omega
  · simp only [List.length_cons] at hlen
    omega

end

/-! ### A text -/

lemma matches_row_iff {w : Str} :
    (Regex.any (validUtf8Rows.map fun row =>
      .cat (row.map fun d => .cls (ByteClass.has d)))).Matches w
      ↔ Row w := by
  simp only [Regex.matches_any_iff, List.mem_map, exists_exists_and_eq_and,
    Regex.matches_cat_cls_iff, Row]

lemma validUtf8_iff_exists {s : Str} :
    validUtf8 (.str s) = true ↔ ∃ cs, s = utf8 cs ∧ ∀ c ∈ cs, Allowed c := by
  rw [validUtf8, Regex.accepts_iff, validUtf8Re]
  constructor
  · refine Regex.star_induction (P := fun s => ∃ cs, s = utf8 cs ∧ ∀ c ∈ cs, Allowed c) ?_ ?_
    · exact ⟨[], rfl, by simp⟩
    · rintro u v hu - ⟨cs, rfl, hcs⟩
      obtain ⟨ch, rfl, hch⟩ := exists_char_of_row (matches_row_iff.1 hu)
      exact ⟨ch :: cs, rfl, List.forall_mem_cons.2 ⟨hch, hcs⟩⟩
  · rintro ⟨cs, rfl, hcs⟩
    induction cs with
    | nil => exact .starNil
    | cons ch cs ih =>
        obtain ⟨hch, hcs⟩ := List.forall_mem_cons.1 hcs
        exact .starCons (matches_row_iff.2 (row_utf8EncodeChar hch)) (ih hcs)

lemma allowed_of_not_isControl {c : Char} (h : isControl c = false) : Allowed c := by
  simp only [isControl, Bool.or_eq_false_iff, Bool.and_eq_false_iff, decide_eq_false_iff_not,
    beq_eq_false_iff_ne] at h
  intro hlt
  omega

lemma validUtf8_filter (cs : List Char) :
    validUtf8 (.str (filterAsciiControlPy (utf8 cs))) = true := by
  rw [filterAsciiControlPy, filter_utf8 filterPy_utf8EncodeChar, validUtf8_iff_exists]
  refine ⟨_, rfl, fun c hc => allowed_of_not_isControl ?_⟩
  simpa using (List.mem_filter.1 hc).2

/-- The check accepts the encodings of the allowed code points and nothing else, and it accepts what
the filter leaves of any text. -/
theorem validUtf8_iff :
    (∀ s : Str, validUtf8 (.str s) = true ↔
      ∃ cs : List Char, s = utf8 cs ∧ ∀ c ∈ cs, c.toNat < 0x80 →
        (0x07 ≤ c.toNat ∧ c.toNat ≤ 0x0D) ∨ (0x20 ≤ c.toNat ∧ c.toNat ≤ 0x7E)) ∧
      ∀ cs : List Char, validUtf8 (.str (filterAsciiControlPy (utf8 cs))) = true :=
  ⟨fun _ => validUtf8_iff_exists, validUtf8_filter⟩

end LocalIndexer

end Mycelium
