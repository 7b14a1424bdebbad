import Mycelium.Html.HtmlScanner
import Mycelium.Lib.Lines

/-!
# The records of links

`operator<<` writes a link as a record: the bytes 0x01, 0x02 and 0x03 stand before, between and
after its two texts, from which the bytes up to 0x08 have been removed.  The stream of records is
read back by splitting it at these three bytes.
-/

namespace Mycelium

open Lib Html

/-- The link of a record, without the byte at its end; `none` if the byte at its start is
missing. -/
def readRecord (record : Str) : Option Link :=
  if record.head? = some 0x01 then
    some { url := record.tail.takeWhile (· != 0x02)
           txt := (record.tail.dropWhile (· != 0x02)).tail }
  else none

/-- The links of a stream of records. -/
def readLinks (stream : Str) : Option (List Link) :=
  (lines (· == 0x03) stream).mapM readRecord

/-- What is written of a link. -/
def Link.printed (l : Link) : Link := ⟨Html.printed l.url, Html.printed l.txt⟩

lemma printLink_eq (l : Link) :
    printLink l = 0x01 :: l.printed.url ++ 0x02 :: l.printed.txt ++ [0x03] := rfl

lemma lt_of_mem_printed {s : Str} {c : UInt8} (h : c ∈ printed s) : 0x08 < c := by
  have hc := List.of_mem_filter h
  simp only [Bool.and_eq_true, decide_eq_true_eq] at hc
  exact hc.1

/-- The text is written as it is if and only if its bytes are between 0x09 and 0x7F. -/
lemma printed_eq_self_iff {s : Str} (h : ∀ c ∈ s, 0x08 < c) :
    printed s = s ↔ ∀ c ∈ s, c < 0x80 := by
  rw [printed, List.filter_eq_self]
  constructor
  · intro hs c hc
    have hboth := hs c hc
    simp only [Bool.and_eq_true, decide_eq_true_eq] at hboth
    exact hboth.2
  · intro hs c hc
    simp [h c hc, hs c hc]

lemma readRecord_printed (l : Link) :
    readRecord (0x01 :: l.printed.url ++ 0x02 :: l.printed.txt) = some l.printed := by
  have hurl : ∀ c ∈ l.printed.url, (c != 0x02) = true := fun c hc => by
    have hlt : 0x08 < c := lt_of_mem_printed hc
    rw [bne_iff_ne]
    rintro rfl
    exact absurd hlt (by decide)
  simp [readRecord, List.takeWhile_append_of_pos hurl, List.dropWhile_append_of_pos hurl]

/-- The records of the stream. -/
lemma lines_printLinks (links : List Link) :
    lines (· == 0x03) (links.flatMap printLink) =
      links.map fun l => 0x01 :: l.printed.url ++ 0x02 :: l.printed.txt := by
  induction links with
  | nil => rfl
  | cons l links ih =>
      have hrecord : ∀ c ∈ 0x01 :: l.printed.url ++ 0x02 :: l.printed.txt,
          (c == 0x03) = false := by
        have hprinted : ∀ c : UInt8, 0x08 < c → (c == 0x03) = false := by
          intro c hc
          rw [beq_eq_false_iff_ne]
          rintro rfl
          exact absurd hc (by decide)
        intro c hc
        simp only [List.cons_append, List.mem_cons, List.mem_append] at hc
        rcases hc with rfl | hc | rfl | hc
        · rfl
        · exact hprinted c (lt_of_mem_printed hc)
        · rfl
        · exact hprinted c (lt_of_mem_printed hc)
      rw [List.flatMap_cons, printLink_eq, List.append_assoc, List.singleton_append,
        lines_append_cons hrecord (by rfl), ih, List.map_cons]

lemma readLinks_printLinks (links : List Link) :
    readLinks (links.flatMap printLink) = some (links.map Link.printed) := by
  rw [readLinks, lines_printLinks]
  induction links with
  | nil => rfl
  | cons l links ih =>
      rw [List.map_cons, List.mapM_cons, readRecord_printed, ih]
      rfl

/-- The links come back from their records if and only if all their bytes are ASCII. -/
theorem readLinks_printLinks_iff (links : List Link)
    (h : ∀ l ∈ links, (∀ c ∈ l.url, 0x08 < c) ∧ ∀ c ∈ l.txt, 0x08 < c) :
    readLinks (links.flatMap printLink) = some links ↔
      ∀ l ∈ links, (∀ c ∈ l.url, c < 0x80) ∧ ∀ c ∈ l.txt, c < 0x80 := by
  rw [readLinks_printLinks, Option.some.injEq]
  have hmap : links.map Link.printed = links ↔ ∀ l ∈ links, l.printed = l := by
    conv_lhs => rw [← List.map_id links, List.map_map]
    exact List.map_inj_left
  rw [hmap]
  refine forall₂_congr fun l hl => ?_
  rw [← printed_eq_self_iff (h l hl).1, ← printed_eq_self_iff (h l hl).2, Link.printed]
  exact Link.mk.injEq _ _ _ _ ▸ Iff.rfl

theorem readLinks_printLinks_iff_ascii :
    readLinks (List.flatMap printLink [⟨lit "/a", lit "b"⟩, ⟨lit "/c", []⟩]) =
      some [⟨lit "/a", lit "b"⟩, ⟨lit "/c", []⟩] := by
  have hlow : List.all [⟨lit "/a", lit "b"⟩, ⟨lit "/c", []⟩]
      (fun l : Link => l.url.all (0x08 < ·) && l.txt.all (0x08 < ·)) = true := by decide
  have hhigh : List.all [⟨lit "/a", lit "b"⟩, ⟨lit "/c", []⟩]
      (fun l : Link => l.url.all (· < 0x80) && l.txt.all (· < 0x80)) = true := by decide
  simp only [List.all_eq_true, Bool.and_eq_true, decide_eq_true_eq] at hlow hhigh
  exact (readLinks_printLinks_iff _ hlow).2 hhigh

/-- A `char` with the highest bit set is negative, so that the byte is not written. -/
theorem readLinks_printLinks_latin :
    readLinks (List.flatMap printLink [⟨lit "/a", [0xC3, 0xA9]⟩]) = some [⟨lit "/a", []⟩] := by
  rw [readLinks_printLinks]
  rfl

end Mycelium
