import Mathlib

/-!
# Byte strings

The sources work on `std::string`, a sequence of `char`s that carries no encoding.  It is
modelled as a list of bytes.  The character classes are those of `<cctype>` in the "C" locale,
which is the locale of every program of the repository; a `char` with the high bit set belongs
to none of them.
-/

namespace Mycelium

/-- A `std::string`. -/
abbrev Str := List UInt8

/-- The bytes of a string literal of the source. -/
def lit (s : String) : Str := s.toList.map Char.toUInt8

/-- The order of `std::string::operator<`: lexicographic, by unsigned bytes. -/
def Str.key (s : Str) : List ℕ := s.map UInt8.toNat

lemma Str.key_injective : Function.Injective Str.key :=
  List.map_injective_iff.2 fun _ _ h => UInt8.toNat_inj.1 h

namespace Byte

def percent : UInt8 := 0x25
def slash : UInt8 := 0x2F
def colon : UInt8 := 0x3A
def question : UInt8 := 0x3F
def hash : UInt8 := 0x23
def atSign : UInt8 := 0x40
def lbracket : UInt8 := 0x5B
def rbracket : UInt8 := 0x5D

/-- A property of bytes holds of all of them when it holds of the 256 values. -/
lemma forall_of_lt {p : UInt8 → Prop} (h : ∀ n < 256, p (UInt8.ofNat n)) (c : UInt8) : p c := by
  have hc := h c.toNat c.toNat_lt
  simpa using hc

end Byte

/-! ### Character classes -/

/-- `isdigit`. -/
def isDigit (c : UInt8) : Bool := 0x30 ≤ c && c ≤ 0x39

/-- `isxdigit`. -/
def isXDigit (c : UInt8) : Bool := isDigit c || (0x41 ≤ c && c ≤ 0x46) || (0x61 ≤ c && c ≤ 0x66)

/-- `isalpha`. -/
def isAlpha (c : UInt8) : Bool := (0x41 ≤ c && c ≤ 0x5A) || (0x61 ≤ c && c ≤ 0x7A)

/-- `isalnum`. -/
def isAlnum (c : UInt8) : Bool := isAlpha c || isDigit c

/-- `find_first_of("\n\r")`. -/
def isSeparator (c : UInt8) : Bool := c == 0x0A || c == 0x0D

/-- `tolower`. -/
def toLower (c : UInt8) : UInt8 := if 0x41 ≤ c && c ≤ 0x5A then c + 0x20 else c

/-- `toupper`. -/
def toUpper (c : UInt8) : UInt8 := if 0x61 ≤ c && c ≤ 0x7A then c - 0x20 else c

/-- `utils::xdigit_to_num`.  The callers have checked `isxdigit`, so that the exception for other
characters is never thrown. -/
def xdigitToNum (c : UInt8) : UInt8 := if c < 0x41 then c - 0x30 else toUpper c - 0x41 + 10

/-- `utils::x2digits_to_num`, on two characters that the callers have checked as above. -/
def x2digitsToNum (c1 c2 : UInt8) : UInt8 := (xdigitToNum c1 <<< 4) + xdigitToNum c2

/-- `utils::digit_to_xnum`, on a number from 0 to 15. -/
def digitToXnum (c : UInt8) : UInt8 := (lit "0123456789ABCDEF").getD c.toNat 0

lemma toNat_shiftRight_four (c : UInt8) : (c >>> 4).toNat = c.toNat / 16 := by
  rw [UInt8.toNat_shiftRight, Nat.shiftRight_eq_div_pow]
  rfl

lemma toNat_and_fifteen (c : UInt8) : (c &&& 0xf).toNat = c.toNat % 16 := by
  rw [UInt8.toNat_and]
  exact Nat.and_two_pow_sub_one_eq_mod c.toNat 4

lemma isXDigit_digitToXnum {c : UInt8} (h : c.toNat < 16) : isXDigit (digitToXnum c) = true := by
  have htable : ∀ n < 16, isXDigit (digitToXnum (UInt8.ofNat n)) = true := by decide
  simpa using htable c.toNat h

lemma isXDigit_digitToXnum_shift (c : UInt8) : isXDigit (digitToXnum (c >>> 4)) = true := by
  refine isXDigit_digitToXnum ?_
  have hc := c.toNat_lt
  rw [toNat_shiftRight_four]
  omega

lemma isXDigit_digitToXnum_and (c : UInt8) : isXDigit (digitToXnum (c &&& 0xf)) = true := by
  refine isXDigit_digitToXnum ?_
  rw [toNat_and_fifteen]
  omega

/-- Each byte has one escape with digits in upper case. -/
lemma digitToXnum_xdigitToNum (c : UInt8) (h : isXDigit c = true) :
    (xdigitToNum c).toNat < 16 ∧ (toUpper c = c → digitToXnum (xdigitToNum c) = c) := by
  revert c
  apply Byte.forall_of_lt
  decide +kernel

lemma xdigitToNum_digitToXnum {c : UInt8} (h : c.toNat < 16) : xdigitToNum (digitToXnum c) = c := by
  have htable : ∀ n < 16, xdigitToNum (digitToXnum (UInt8.ofNat n)) = UInt8.ofNat n := by decide
  simpa using htable c.toNat h

/-- The number of two digits below sixteen. -/
lemma toNat_shiftLeft_four_add {m n : UInt8} (hm : m.toNat < 16) (hn : n.toNat < 16) :
    ((m <<< 4) + n).toNat = 16 * m.toNat + n.toNat := by
  rw [UInt8.toNat_add, UInt8.toNat_shiftLeft, Nat.shiftLeft_eq]
  have h4 : (4 : UInt8).toNat % 8 = 4 := rfl
  rw [h4]
  omega

lemma x2digitsToNum_digits (c : UInt8) :
    x2digitsToNum (digitToXnum (c >>> 4)) (digitToXnum (c &&& 0xf)) = c := by
  have hc := c.toNat_lt
  have hhigh : (c >>> 4).toNat < 16 := by rw [toNat_shiftRight_four]; omega
  have hlow : (c &&& 0xf).toNat < 16 := by rw [toNat_and_fifteen]; omega
  rw [x2digitsToNum, xdigitToNum_digitToXnum hhigh, xdigitToNum_digitToXnum hlow,
    ← UInt8.toNat_inj, toNat_shiftLeft_four_add hhigh hlow, toNat_shiftRight_four,
    toNat_and_fifteen]
  omega

lemma digits_x2digitsToNum {a b : UInt8} (ha : isXDigit a = true) (hb : isXDigit b = true)
    (hua : toUpper a = a) (hub : toUpper b = b) :
    digitToXnum (x2digitsToNum a b >>> 4) = a ∧ digitToXnum (x2digitsToNum a b &&& 0xf) = b := by
  obtain ⟨hm, ha⟩ := digitToXnum_xdigitToNum a ha
  obtain ⟨hn, hb⟩ := digitToXnum_xdigitToNum b hb
  have hnum := toNat_shiftLeft_four_add hm hn
  have hhigh : x2digitsToNum a b >>> 4 = xdigitToNum a := by
    rw [← UInt8.toNat_inj, toNat_shiftRight_four, x2digitsToNum, hnum]
    omega
  have hlow : x2digitsToNum a b &&& 0xf = xdigitToNum b := by
    rw [← UInt8.toNat_inj, toNat_and_fifteen, x2digitsToNum, hnum]
    omega
  rw [hhigh, hlow]
  exact ⟨ha hua, hb hub⟩

lemma toLower_toLower (c : UInt8) : toLower (toLower c) = toLower c := by
  simp only [toLower, Bool.and_eq_true, decide_eq_true_eq]
  grind

/-! ### String functions of Boost -/

/-- `isspace`. -/
def isSpace (c : UInt8) : Bool := c == 0x20 || (0x09 ≤ c && c ≤ 0x0D)

/-- `boost::trim`. -/
def trim (s : Str) : Str := (s.dropWhile isSpace).rdropWhile isSpace

/-- `boost::iequals`. -/
def iequals (s t : Str) : Bool := s.map toUpper == t.map toUpper

/-- The tokens of a `boost::tokenizer` with a `char_separator`: the separators are dropped, and so
are empty tokens. -/
def tokenize (sep s : Str) : List Str := (s.splitOnP sep.contains).filter (!·.isEmpty)

/-! ### Exceptions -/

/-- The exceptions the sources throw, with the text of `what()`. -/
inductive Exn where
  /-- `UrlParseError`. -/
  | urlParseError (what : Str)
  /-- `BadUrl`. -/
  | badUrl (what : Str)
  /-- `std::runtime_error`. -/
  | runtimeError (what : Str)
  /-- An exception of the database driver. -/
  | dbException (what : Str)
  /-- `std::logic_error`. -/
  | logicError (what : Str)
deriving DecidableEq, Repr

lemma ok_bind {ε α β : Type} (a : α) (f : α → Except ε β) : (.ok a >>= f) = f a := rfl

lemma bind_eq_ok {ε α β : Type} {x : Except ε α} {f : α → Except ε β} {r : β} :
    (x >>= f) = .ok r ↔ ∃ a, x = .ok a ∧ f a = .ok r := by
  cases x <;> simp [bind, Except.bind]

lemma ok_of_toOption {ε α : Type} {x : Except ε α} {a : α} (h : x.toOption = some a) :
    x = .ok a := by
  cases x with
  | ok b => exact congrArg Except.ok (Option.some.inj h)
  | error e => exact absurd h (by simp [Except.toOption])

end Mycelium
