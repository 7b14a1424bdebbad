import Mycelium.Common.InputStream
import Mycelium.Lib.SortedMap

/-!
# Bencode

Values that are written to and read from streams: integers, strings, lists and maps.  The text that
is written for a value is read back to the value, whatever follows it.
-/

namespace Mycelium

open Lib

/-! ### The values -/

/-- `class Bencode`; a map is sorted by its keys, as a `std::map` is. -/
inductive Bencode where
  | none
  | value (v : Int64)
  | string (s : Str)
  | list (l : List Bencode)
  | map (m : List (Str × Bencode))

namespace Bencode

/-- Why the reader does not return. -/
inductive Stop where
  /-- `std::length_error` of `resize`. -/
  | lengthError
  | outOfFuel
deriving DecidableEq, Repr

/-- `Bencode::read_string`; `none` when it returns `false`. -/
def readString (s : IStream) : Except Stop (Option Str × IStream) :=
  let (size, s) := s.readInt 32
  match size with
  | Option.none => .ok (Option.none, s)
  | some size =>
      let (c, s) := s.get
      if c = some 0x3A then
        if size < 0 then .error .lengthError
        else
          let (str, s) := s.getChars size.toNat
          if s.failbit then .ok (Option.none, s) else .ok (some str, s)
      else .ok (Option.none, s)

/-- The end of `operator>>` after a `break`. -/
def failed (s : IStream) : Except Stop (Bencode × IStream) := .ok (.none, s.setFail)

/-- The default case of the switch, for the character `c`. -/
def readDefault (c : UInt8) (s : IStream) : Except Stop (Bencode × IStream) :=
  if isDigit c then do
    let (str, s) ← readString s
    match str with
    | some str => .ok (.string str, s)
    | Option.none => failed s
  else failed s

/-- The case of an integer, after its `i`. -/
def readValue (s : IStream) : Except Stop (Bencode × IStream) :=
  let (v, s) := s.readInt 64
  match v with
  | Option.none => failed s
  | some v =>
      let (c, s) := s.get
      if c = some 0x65 then .ok (.value (Int64.ofInt v), s) else failed s

mutual

/-- `operator>>`; the number bounds the depth of the calls. -/
def readFuel : ℕ → IStream → Except Stop (Bencode × IStream)
  | 0, _ => .error .outOfFuel
  | fuel + 1, s =>
      let (c, s) := s.peek
      match c with
      | Option.none => failed s
      | some c =>
          if c = 0x69 then readValue s.get.2
          else if c = 0x6C then readList fuel [] s.get.2
          else if c = 0x64 then readMap fuel [] s.get.2
          else if c = 0x75 then
            -- `u` is skipped, and what follows is taken by the default case
            let (c, s) := s.get.2.peek
            match c with
            | Option.none => failed s
            | some c => readDefault c s
          else readDefault c s

/-- The loop of a list, with the elements so far. -/
def readList : ℕ → List Bencode → IStream → Except Stop (Bencode × IStream)
  | 0, _, _ => .error .outOfFuel
  | fuel + 1, l, s =>
      if s.good then
        let (c, s) := s.peek
        if c = some 0x65 then .ok (.list l, s.get.2)
        else do
          let (b, s) ← readFuel fuel s
          readList fuel (l ++ [b]) s
      else failed s

/-- The loop of a map, with the entries so far. -/
def readMap : ℕ → List (Str × Bencode) → IStream → Except Stop (Bencode × IStream)
  | 0, _, _ => .error .outOfFuel
  | fuel + 1, m, s =>
      if s.good then
        let (c, s) := s.peek
        if c = some 0x65 then .ok (.map m, s.get.2)
        else do
          let (str, s) ← readString s
          match str with
          | Option.none => failed s
          | some str => do
              let (b, s) ← readFuel fuel s
              readMap fuel (SortedMap.set Str.key str b m) s
      else failed s

end

/-- `operator>>`.  Every character is read by at most two nested calls. -/
def read (s : IStream) : Except Stop (Bencode × IStream) := readFuel (2 * s.rest.length + 1) s

/-- A string with its length. -/
def netstring (s : Str) : Str := decimal s.length ++ 0x3A :: s

mutual

/-- `operator<<`. -/
def print : Bencode → Str
  | .none => []
  | .value v => 0x69 :: signedDecimal v.toInt ++ [0x65]
  | .string s => netstring s
  | .list l => 0x6C :: printList l ++ [0x65]
  | .map m => 0x64 :: printMap m ++ [0x65]

def printList : List Bencode → Str
  | [] => []
  | b :: l => print b ++ printList l

def printMap : List (Str × Bencode) → Str
  | [] => []
  | (k, b) :: m => netstring k ++ print b ++ printMap m

end

/-! ### What is written is read -/

/-- The values that a text can hold: the type of no part is `TYPE_NONE`, the lengths of the strings
are values of `int`, and the maps are sorted. -/
inductive WellFormed : Bencode → Prop
  | value (v : Int64) : WellFormed (.value v)
  | string (s : Str) (hs : s.length < 2 ^ 31) : WellFormed (.string s)
  | list (l : List Bencode) (hl : ∀ b ∈ l, WellFormed b) : WellFormed (.list l)
  | map (m : List (Str × Bencode)) (hsorted : SortedMap.Sorted Str.key m)
      (hkeys : ∀ e ∈ m, e.1.length < 2 ^ 31) (hm : ∀ e ∈ m, WellFormed e.2) : WellFormed (.map m)

variable {b : Bencode} {t : Str} {fuel : ℕ}

lemma readString_netstring {s : Str} (hs : s.length < 2 ^ 31) :
    readString { rest := netstring s ++ t } = .ok (some s, { rest := t }) := by
  have htext : netstring s ++ t = signedDecimal s.length ++ 0x3A :: (s ++ t) := by
    rw [netstring, signedDecimal_natCast, List.append_assoc, List.cons_append]
  have hsize : (s.length : ℤ) < 2 ^ (32 - 1) := by exact_mod_cast hs
  have hread := IStream.readInt_signedDecimal 32 (u := s ++ t) (c := 0x3A)
    (by have := Int.natCast_nonneg s.length; norm_num) hsize (by decide)
  rw [readString, htext, hread]
  simp only [IStream.get_cons, if_neg (Int.natCast_nonneg s.length).not_gt, Int.toNat_natCast,
    IStream.getChars_append]
  rfl

lemma readValue_print {v : Int64} :
    readValue { rest := signedDecimal v.toInt ++ 0x65 :: t } = .ok (.value v, { rest := t }) := by
  have hread := IStream.readInt_signedDecimal 64 (u := t) (c := 0x65)
    v.le_toInt v.toInt_lt (by decide)
  rw [readValue, hread]
  simp only [IStream.get_cons, Int64.ofInt_toInt]
  rfl

/-- The text of a value does not start with the end of a list. -/
lemma exists_print (h : b.WellFormed) : ∃ c u, b.print = c :: u ∧ c ≠ 0x65 := by
  cases h with
  | value v => exact ⟨0x69, _, by rw [print, List.cons_append], by decide⟩
  | string s hs =>
      obtain ⟨d, ds, hd⟩ := List.exists_cons_of_ne_nil (decimal_ne_nil s.length)
      have hdigit : isDigit d := isDigit_of_mem_decimal (hd ▸ List.mem_cons_self)
      refine ⟨d, _, by rw [print, netstring, hd, List.cons_append], ?_⟩
      rintro rfl
      exact absurd hdigit (by decide)
  | list l hl => exact ⟨0x6C, _, by rw [print, List.cons_append], by decide⟩
  | map m hsorted hkeys hm => exact ⟨0x64, _, by rw [print, List.cons_append], by decide⟩

lemma readFuel_value : readFuel (fuel + 1) { rest := 0x69 :: t } = readValue { rest := t } := by
  rw [readFuel, IStream.peek_cons]
  rfl

lemma readFuel_list :
    readFuel (fuel + 1) { rest := 0x6C :: t } = readList fuel [] { rest := t } := by
  rw [readFuel, IStream.peek_cons]
  rfl

lemma readFuel_map : readFuel (fuel + 1) { rest := 0x64 :: t } = readMap fuel [] { rest := t } := by
  rw [readFuel, IStream.peek_cons]
  rfl

lemma readFuel_digit {c : UInt8} (hc : isDigit c) :
    readFuel (fuel + 1) { rest := c :: t } = readDefault c { rest := c :: t } := by
  have hne : ∀ x : UInt8, isDigit x = false → c ≠ x := by
    rintro x hx rfl
    exact absurd hc (by simp [hx])
  rw [readFuel, IStream.peek_cons]
  simp only [if_neg (hne 0x69 (by decide)), if_neg (hne 0x6C (by decide)),
    if_neg (hne 0x64 (by decide)), if_neg (hne 0x75 (by decide))]

lemma readFuel_netstring {s : Str} (hs : s.length < 2 ^ 31) :
    readFuel (fuel + 1) { rest := netstring s ++ t } = .ok (.string s, { rest := t }) := by
  obtain ⟨d, ds, hd⟩ := List.exists_cons_of_ne_nil (decimal_ne_nil s.length)
  have hdigit : isDigit d := isDigit_of_mem_decimal (hd ▸ List.mem_cons_self)
  have htext : netstring s ++ t = d :: (ds ++ 0x3A :: s ++ t) := by
    rw [netstring, hd, List.cons_append, List.cons_append]
  have hread := readString_netstring (t := t) hs
  rw [htext] at hread ⊢
  rw [readFuel_digit hdigit, readDefault, if_pos hdigit, hread]
  rfl

lemma readList_end {l : List Bencode} :
    readList (fuel + 1) l { rest := 0x65 :: t } = .ok (.list l, { rest := t }) := by
  rw [readList, if_pos IStream.good_mk, IStream.peek_cons]
  rfl

lemma readList_cons {l : List Bencode} {c : UInt8} {s : IStream} (hc : c ≠ 0x65)
    (h : readFuel fuel { rest := c :: t } = .ok (b, s)) :
    readList (fuel + 1) l { rest := c :: t } = readList fuel (l ++ [b]) s := by
  rw [readList, if_pos IStream.good_mk, IStream.peek_cons]
  simp only [if_neg (show some c ≠ some 0x65 by simpa using hc), h]
  rfl

lemma readMap_end {m : List (Str × Bencode)} :
    readMap (fuel + 1) m { rest := 0x65 :: t } = .ok (.map m, { rest := t }) := by
  rw [readMap, if_pos IStream.good_mk, IStream.peek_cons]
  rfl

lemma readMap_cons {m : List (Str × Bencode)} {c : UInt8} {k : Str} {s s' : IStream} (hc : c ≠ 0x65)
    (hk : readString { rest := c :: t } = .ok (some k, s)) (h : readFuel fuel s = .ok (b, s')) :
    readMap (fuel + 1) m { rest := c :: t } = readMap fuel (SortedMap.set Str.key k b m) s' := by
  rw [readMap, if_pos IStream.good_mk, IStream.peek_cons]
  simp only [if_neg (show some c ≠ some 0x65 by simpa using hc), hk, ok_bind, h]

/-- The elements of a list are read behind those that were read before. -/
lemma readList_print {l : List Bencode} (h : ∀ b ∈ l, b.WellFormed)
    (ih : ∀ b ∈ l, ∀ fuel t, 2 * b.print.length + 1 ≤ fuel →
      readFuel fuel { rest := b.print ++ t } = .ok (b, { rest := t }))
    (acc : List Bencode) (fuel : ℕ) (hfuel : 2 * (printList l).length + 2 ≤ fuel) :
    readList fuel acc { rest := printList l ++ 0x65 :: t } =
      .ok (.list (acc ++ l), { rest := t }) := by
  induction l generalizing acc fuel with
  | nil =>
      obtain ⟨fuel, rfl⟩ : ∃ k, fuel = k + 1 := ⟨fuel - 1, by omega⟩
      rw [printList, List.nil_append, readList_end, List.append_nil]
  | cons b l ihl =>
      obtain ⟨hb, hl⟩ := List.forall_mem_cons.1 h
      obtain ⟨ihb, ih⟩ := List.forall_mem_cons.1 ih
      obtain ⟨c, u, hprint, hc⟩ := exists_print hb
      rw [printList, List.length_append] at hfuel
      have hpos : 1 ≤ b.print.length := by rw [hprint]; exact Nat.succ_pos _
      obtain ⟨fuel, rfl⟩ : ∃ k, fuel = k + 1 := ⟨fuel - 1, by omega⟩
      have hread := ihb fuel (printList l ++ 0x65 :: t) (by omega)
      rw [hprint, List.cons_append] at hread
      rw [printList, List.append_assoc, hprint, List.cons_append, readList_cons hc hread]
      refine (ihl hl ih (acc ++ [b]) fuel (by omega)).trans ?_
      rw [List.append_assoc, List.singleton_append]

/-- The entries of a map are set in turn. -/
lemma readMap_print {m : List (Str × Bencode)} (hkeys : ∀ e ∈ m, e.1.length < 2 ^ 31)
    (ih : ∀ e ∈ m, ∀ fuel t, 2 * e.2.print.length + 1 ≤ fuel →
      readFuel fuel { rest := e.2.print ++ t } = .ok (e.2, { rest := t }))
    (acc : List (Str × Bencode)) (fuel : ℕ) (hfuel : 2 * (printMap m).length + 2 ≤ fuel) :
    readMap fuel acc { rest := printMap m ++ 0x65 :: t } =
      .ok (.map (m.foldl (fun m e => SortedMap.set Str.key e.1 e.2 m) acc), { rest := t }) := by
  induction m generalizing acc fuel with
  | nil =>
      obtain ⟨fuel, rfl⟩ : ∃ k, fuel = k + 1 := ⟨fuel - 1, by omega⟩
      rw [printMap, List.nil_append, readMap_end, List.foldl_nil]
  | cons e m ihm =>
      obtain ⟨k, b⟩ := e
      obtain ⟨hk, hkeys⟩ := List.forall_mem_cons.1 hkeys
      obtain ⟨ihb, ih⟩ := List.forall_mem_cons.1 ih
      obtain ⟨c, u, hprint, hc⟩ := exists_print (.string k hk)
      rw [print] at hprint
      rw [printMap, List.length_append, List.length_append] at hfuel
      have hpos : 1 ≤ (netstring k).length := by rw [hprint]; exact Nat.succ_pos _
      obtain ⟨fuel, rfl⟩ : ∃ k, fuel = k + 1 := ⟨fuel - 1, by omega⟩
      have hkey := readString_netstring (t := b.print ++ (printMap m ++ 0x65 :: t)) hk
      have hread : readFuel fuel { rest := b.print ++ (printMap m ++ 0x65 :: t) } =
          .ok (b, { rest := printMap m ++ 0x65 :: t }) := ihb fuel _ (by simp only; omega)
      rw [hprint, List.cons_append] at hkey
      rw [printMap, List.append_assoc, List.append_assoc, hprint, List.cons_append,
        readMap_cons hc hkey hread]
      exact ihm hkeys ih _ fuel (by omega)

lemma readFuel_print (h : b.WellFormed) (fuel : ℕ) (t : Str)
    (hfuel : 2 * b.print.length + 1 ≤ fuel) :
    readFuel fuel { rest := b.print ++ t } = .ok (b, { rest := t }) := by
  induction h generalizing fuel t with
  | value v =>
      obtain ⟨fuel, rfl⟩ : ∃ k, fuel = k + 1 := ⟨fuel - 1, by omega⟩
      rw [print, List.cons_append, List.cons_append, List.append_assoc, readFuel_value]
      exact readValue_print
  | string s hs =>
      obtain ⟨fuel, rfl⟩ : ∃ k, fuel = k + 1 := ⟨fuel - 1, by omega⟩
      rw [print, readFuel_netstring hs]
  | list l hl ih =>
      obtain ⟨fuel, rfl⟩ : ∃ k, fuel = k + 1 := ⟨fuel - 1, by omega⟩
      rw [print, List.length_append, List.length_cons] at hfuel
      rw [print, List.cons_append, List.cons_append, List.append_assoc, readFuel_list]
      exact readList_print hl ih [] fuel (by omega)
  | map m hsorted hkeys hm ih =>
      obtain ⟨fuel, rfl⟩ : ∃ k, fuel = k + 1 := ⟨fuel - 1, by omega⟩
      rw [print, List.length_append, List.length_cons] at hfuel
      rw [print, List.cons_append, List.cons_append, List.append_assoc, readFuel_map]
      refine (readMap_print hkeys ih [] fuel (by omega)).trans ?_
      rw [SortedMap.foldl_set hsorted]
      rfl

end Bencode

end Mycelium
