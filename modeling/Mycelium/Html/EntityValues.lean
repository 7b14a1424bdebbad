import Mathlib.Data.Nat.Digits.Defs
import Mycelium.Common.Utf8

/-!
# The values of references

What `Entity_handler` puts in the place of a reference: the table of names that its constructor
fills, and the two functions that read the number of a character.  They take the digits from the
last one on and add them up in an `int`, each multiplied by its power of the base; the number is
compared with the largest code point after every addition.

A number that leaves the range of an `int`, or a shift by more bits than an `int` has, is an error
of the model (`none`).  `decNumcharRef_eq` and `hexNumcharRef_eq` say which references are read
without an error, and that these are given the character they stand for.
-/

namespace Mycelium

/-- The library for Unicode. -/
structure Icu where
  /-- `u_isdefined`. -/
  isDefined : ℕ → Bool
  /-- The converter to UTF-8 on a text of one code point; `none` when it reports an error. -/
  fromUChars : ℕ → Option Str
  isDefined_ascii : ∀ c < 0x80, isDefined c = true
  fromUChars_ascii : ∀ c < 0x80, fromUChars c = some [UInt8.ofNat c]
  length_fromUChars : ∀ c u, fromUChars c = some u → u.length ≤ 4

namespace Icu

/-- `UCHAR_MAX_VALUE`. -/
def ucharMaxValue : ℕ := 0x10FFFF

/-- `cp2utf8`; `none` is the exception `unicode_error`. -/
def cp2utf8 (icu : Icu) (c : ℕ) : Option Str :=
  if icu.isDefined c then icu.fromUChars c else some []

lemma cp2utf8_ascii (icu : Icu) {c : ℕ} (hc : c < 0x80) : icu.cp2utf8 c = some [UInt8.ofNat c] := by
  rw [cp2utf8, if_pos (icu.isDefined_ascii c hc), icu.fromUChars_ascii c hc]

/-- A library that converts every code point. -/
def unicode : Icu where
  isDefined _ := true
  fromUChars c := some (String.utf8EncodeChar (Char.ofNat c))
  isDefined_ascii _ _ := rfl
  fromUChars_ascii c hc := by
    have hnat : (Char.ofNat c).toNat = c := by
      rw [Char.toNat_ofNat, if_pos (Or.inl (by omega))]
    rw [utf8EncodeChar_of_lt (by omega), hnat]
  length_fromUChars c u h := by
    cases h
    rw [String.length_utf8EncodeChar]
    exact Char.utf8Size_le_four _

lemma length_cp2utf8 (icu : Icu) {c : ℕ} {u : Str} (h : icu.cp2utf8 c = some u) : u.length ≤ 4 := by
  rw [cp2utf8] at h
  split at h
  · exact icu.length_fromUChars c u h
  · cases h
    simp

/-! ### The table of names -/

/-- The names and code points of the constructor `Entity_handler::Entity_handler`. -/
def charentTable : List (Str × ℕ) :=
  [ (lit "quot", 0x0022), (lit "amp", 0x0026), (lit "apos", 0x0027), (lit "lt", 0x003c),
    (lit "gt", 0x003e), (lit "nbsp", 0x00a0), (lit "iexcl", 0x00a1), (lit "cent", 0x00a2),
    (lit "pound", 0x00a3), (lit "curren", 0x00a4), (lit "yen", 0x00a5), (lit "brvbar", 0x00a6),
    (lit "sect", 0x00a7), (lit "uml", 0x00a8), (lit "copy", 0x00a9), (lit "ordf", 0x00aa),
    (lit "laquo", 0x00ab), (lit "not", 0x00ac), (lit "shy", 0x00ad), (lit "reg", 0x00ae),
    (lit "macr", 0x00af), (lit "deg", 0x00b0), (lit "plusmn", 0x00b1), (lit "sup2", 0x00b2),
    (lit "sup3", 0x00b3), (lit "acute", 0x00b4), (lit "micro", 0x00b5), (lit "para", 0x00b6),
    (lit "middot", 0x00b7), (lit "cedil", 0x00b8), (lit "sup1", 0x00b9), (lit "ordm", 0x00ba),
    (lit "raquo", 0x00bb), (lit "frac14", 0x00bc), (lit "frac12", 0x00bd), (lit "frac34", 0x00be),
    (lit "iquest", 0x00bf), (lit "Agrave", 0x00c0), (lit "Aacute", 0x00c1), (lit "Acirc", 0x00c2),
    (lit "Atilde", 0x00c3), (lit "Auml", 0x00c4), (lit "Aring", 0x00c5), (lit "AElig", 0x00c6),
    (lit "Ccedil", 0x00c7), (lit "Egrave", 0x00c8), (lit "Eacute", 0x00c9), (lit "Ecirc", 0x00ca),
    (lit "Euml", 0x00cb), (lit "Igrave", 0x00cc), (lit "Iacute", 0x00cd), (lit "Icirc", 0x00ce),
    (lit "Iuml", 0x00cf), (lit "ETH", 0x00d0), (lit "Ntilde", 0x00d1), (lit "Ograve", 0x00d2),
    (lit "Oacute", 0x00d3), (lit "Ocirc", 0x00d4), (lit "Otilde", 0x00d5), (lit "Ouml", 0x00d6),
    (lit "times", 0x00d7), (lit "Oslash", 0x00d8), (lit "Ugrave", 0x00d9), (lit "Uacute", 0x00da),
    (lit "Ucirc", 0x00db), (lit "Uuml", 0x00dc), (lit "Yacute", 0x00dd), (lit "THORN", 0x00de),
    (lit "szlig", 0x00df), (lit "agrave", 0x00e0), (lit "aacute", 0x00e1), (lit "acirc", 0x00e2),
    (lit "atilde", 0x00e3), (lit "auml", 0x00e4), (lit "aring", 0x00e5), (lit "aelig", 0x00e6),
    (lit "ccedil", 0x00e7), (lit "egrave", 0x00e8), (lit "eacute", 0x00e9), (lit "ecirc", 0x00ea),
    (lit "euml", 0x00eb), (lit "igrave", 0x00ec), (lit "iacute", 0x00ed), (lit "icirc", 0x00ee),
    (lit "iuml", 0x00ef), (lit "eth", 0x00f0), (lit "ntilde", 0x00f1), (lit "ograve", 0x00f2),
    (lit "oacute", 0x00f3), (lit "ocirc", 0x00f4), (lit "otilde", 0x00f5), (lit "ouml", 0x00f6),
    (lit "divide", 0x00f7), (lit "oslash", 0x00f8), (lit "ugrave", 0x00f9),
    (lit "uacute", 0x00fa), (lit "ucirc", 0x00fb), (lit "uuml", 0x00fc), (lit "yacute", 0x00fd),
    (lit "thorn", 0x00fe), (lit "yuml", 0x00ff), (lit "OElig", 0x0152), (lit "oelig", 0x0153),
    (lit "Scaron", 0x0160), (lit "scaron", 0x0161), (lit "Yuml", 0x0178), (lit "fnof", 0x0192),
    (lit "circ", 0x02c6), (lit "tilde", 0x02dc), (lit "Alpha", 0x0391), (lit "Beta", 0x0392),
    (lit "Gamma", 0x0393), (lit "Delta", 0x0394), (lit "Epsilon", 0x0395), (lit "Zeta", 0x0396),
    (lit "Eta", 0x0397), (lit "Theta", 0x0398), (lit "Iota", 0x0399), (lit "Kappa", 0x039a),
    (lit "Lambda", 0x039b), (lit "Mu", 0x039c), (lit "Nu", 0x039d), (lit "Xi", 0x039e),
    (lit "Omicron", 0x039f), (lit "Pi", 0x03a0), (lit "Rho", 0x03a1), (lit "Sigma", 0x03a3),
    (lit "Tau", 0x03a4), (lit "Upsilon", 0x03a5), (lit "Phi", 0x03a6), (lit "Chi", 0x03a7),
    (lit "Psi", 0x03a8), (lit "Omega", 0x03a9), (lit "alpha", 0x03b1), (lit "beta", 0x03b2),
    (lit "gamma", 0x03b3), (lit "delta", 0x03b4), (lit "epsilon", 0x03b5), (lit "zeta", 0x03b6),
    (lit "eta", 0x03b7), (lit "theta", 0x03b8), (lit "iota", 0x03b9), (lit "kappa", 0x03ba),
    (lit "lambda", 0x03bb), (lit "mu", 0x03bc), (lit "nu", 0x03bd), (lit "xi", 0x03be),
    (lit "omicron", 0x03bf), (lit "pi", 0x03c0), (lit "rho", 0x03c1), (lit "sigmaf", 0x03c2),
    (lit "sigma", 0x03c3), (lit "tau", 0x03c4), (lit "upsilon", 0x03c5), (lit "phi", 0x03c6),
    (lit "chi", 0x03c7), (lit "psi", 0x03c8), (lit "omega", 0x03c9), (lit "thetasym", 0x03d1),
    (lit "upsih", 0x03d2), (lit "piv", 0x03d6), (lit "ensp", 0x2002), (lit "emsp", 0x2003),
    (lit "thinsp", 0x2009), (lit "zwnj", 0x200c), (lit "zwj", 0x200d), (lit "lrm", 0x200e),
    (lit "rlm", 0x200f), (lit "ndash", 0x2013), (lit "mdash", 0x2014), (lit "lsquo", 0x2018),
    (lit "rsquo", 0x2019), (lit "sbquo", 0x201a), (lit "ldquo", 0x201c), (lit "rdquo", 0x201d),
    (lit "bdquo", 0x201e), (lit "dagger", 0x2020), (lit "Dagger", 0x2021), (lit "bull", 0x2022),
    (lit "hellip", 0x2026), (lit "permil", 0x2030), (lit "prime", 0x2032), (lit "Prime", 0x2033),
    (lit "lsaquo", 0x2039), (lit "rsaquo", 0x203a), (lit "oline", 0x203e), (lit "frasl", 0x2044),
    (lit "euro", 0x20ac), (lit "image", 0x2111), (lit "weierp", 0x2118), (lit "real", 0x211c),
    (lit "trade", 0x2122), (lit "alefsym", 0x2135), (lit "larr", 0x2190), (lit "uarr", 0x2191),
    (lit "rarr", 0x2192), (lit "darr", 0x2193), (lit "harr", 0x2194), (lit "crarr", 0x21b5),
    (lit "lArr", 0x21d0), (lit "uArr", 0x21d1), (lit "rArr", 0x21d2), (lit "dArr", 0x21d3),
    (lit "hArr", 0x21d4), (lit "forall", 0x2200), (lit "part", 0x2202), (lit "exist", 0x2203),
    (lit "empty", 0x2205), (lit "nabla", 0x2207), (lit "isin", 0x2208), (lit "notin", 0x2209),
    (lit "ni", 0x220b), (lit "prod", 0x220f), (lit "sum", 0x2211), (lit "minus", 0x2212),
    (lit "lowast", 0x2217), (lit "radic", 0x221a), (lit "prop", 0x221d), (lit "infin", 0x221e),
    (lit "ang", 0x2220), (lit "and", 0x2227), (lit "or", 0x2228), (lit "cap", 0x2229),
    (lit "cup", 0x222a), (lit "int", 0x222b), (lit "there4", 0x2234), (lit "sim", 0x223c),
    (lit "cong", 0x2245), (lit "asymp", 0x2248), (lit "ne", 0x2260), (lit "equiv", 0x2261),
    (lit "le", 0x2264), (lit "ge", 0x2265), (lit "sub", 0x2282), (lit "sup", 0x2283),
    (lit "nsub", 0x2284), (lit "sube", 0x2286), (lit "supe", 0x2287), (lit "oplus", 0x2295),
    (lit "otimes", 0x2297), (lit "perp", 0x22a5), (lit "sdot", 0x22c5), (lit "lceil", 0x2308),
    (lit "rceil", 0x2309), (lit "lfloor", 0x230a), (lit "rfloor", 0x230b), (lit "lang", 0x2329),
    (lit "rang", 0x232a), (lit "loz", 0x25ca), (lit "spades", 0x2660), (lit "clubs", 0x2663),
    (lit "hearts", 0x2665), (lit "diams", 0x2666), (lit "QUOT", 0x0022), (lit "AMP", 0x0026),
    (lit "COPY", 0x00a9), (lit "GT", 0x003e), (lit "LT", 0x003c), (lit "REG", 0x00ae) ]

/-- The map that the constructor fills.  No name occurs twice, so that the order does not matter;
`none` when a conversion throws. -/
def charent (icu : Icu) : Option (List (Str × Str)) :=
  charentTable.mapM fun e => (icu.cp2utf8 e.2).map fun u => (e.1, u)

/-- `Entity_handler::char_entity`. -/
def charEntity (charent : List (Str × Str)) (str : Str) : Str := (charent.lookup str).getD []

lemma charent_unicode : ∃ m, unicode.charent = some m := by
  refine ⟨charentTable.map fun e => (e.1, String.utf8EncodeChar (Char.ofNat e.2)), ?_⟩
  rw [charent]
  generalize charentTable = table
  induction table with
  | nil => rfl
  | cons e table ih =>
      rw [List.mapM_cons, ih]
      rfl

/-- The value of a name is the character of its code point. -/
lemma lookup_charent {icu : Icu} {m : List (Str × Str)} (h : icu.charent = some m) (str : Str) :
    m.lookup str = (charentTable.lookup str).bind icu.cp2utf8 := by
  rw [charent] at h
  generalize charentTable = table at h ⊢
  induction table generalizing m with
  | nil =>
      cases h
      rfl
  | cons e table ih =>
      rw [List.mapM_cons, Option.bind_eq_bind, Option.bind_eq_some_iff] at h
      obtain ⟨x, hx, h⟩ := h
      rw [Option.bind_eq_bind, Option.bind_eq_some_iff] at h
      obtain ⟨m', hm', h⟩ := h
      obtain ⟨u, hu, rfl⟩ := Option.map_eq_some_iff.1 hx
      cases h
      rw [List.lookup_cons, List.lookup_cons, ih hm']
      split
      · rw [Option.bind_some, hu]
      · rfl

/-! ### The numeric references -/

/-- An `int` with 32 bits that is not negative. -/
def toInt (n : ℕ) : Option ℕ := if n < 2 ^ 31 then some n else none

/-- The loop of the two functions, over the characters from the last one on.  `term` is the summand
of a character at a place; the result `some none` is an early return of the empty string. -/
def refLoop (isDig : UInt8 → Bool) (term : UInt8 → ℕ → Option ℕ) : Str → ℕ → ℕ → Option (Option ℕ)
  | [], _, num => some (some num)
  | c :: s, pos, num =>
      if isDig c then do
        let val ← term c pos
        let num ← toInt (num + val)
        if ucharMaxValue < num then some none
        else do
          let pos ← toInt (pos + 1)
          refLoop isDig term s pos num
      else some none

/-- `for(int pow=0; pow < pos; ++pow) val *= 10`. -/
def mulTens : ℕ → ℕ → Option ℕ
  | 0, val => some val
  | pos + 1, val => do
      let val ← toInt (val * 10)
      mulTens pos val

/-- `*i - '0'`. -/
def decDigit (c : UInt8) : ℕ := (c - 0x30).toNat

def decTerm (c : UInt8) (pos : ℕ) : Option ℕ := mulTens pos (decDigit c)

/-- `utils::xdigit_to_num(*i)`. -/
def hexDigit (c : UInt8) : ℕ := (xdigitToNum c).toNat

/-- `utils::xdigit_to_num(*i) << (4*pos)`. -/
def hexTerm (c : UInt8) (pos : ℕ) : Option ℕ :=
  if 4 * pos < 32 then toInt (hexDigit c <<< (4 * pos)) else none

/-- The end of the two functions, with the exceptions caught. -/
def refResult (icu : Icu) : Option ℕ → Str
  | none => []
  | some num => if num ≤ ucharMaxValue then (icu.cp2utf8 num).getD [] else []

lemma length_refResult (icu : Icu) (r : Option ℕ) : (icu.refResult r).length ≤ 4 := by
  rcases r with _ | num
  · exact Nat.zero_le 4
  · rw [refResult]
    split
    · cases hu : icu.cp2utf8 num with
      | none => exact Nat.zero_le 4
      | some u => exact icu.length_cp2utf8 hu
    · exact Nat.zero_le 4

/-- `Entity_handler::dec_numchar_ref`. -/
def decNumcharRef (icu : Icu) (str : Str) : Option Str :=
  (refLoop isDigit decTerm str.reverse 0 0).map icu.refResult

/-- `Entity_handler::hex_numchar_ref`.  A character that is no digit makes `xdigit_to_num` throw,
and the exception is caught. -/
def hexNumcharRef (icu : Icu) (str : Str) : Option Str :=
  (refLoop isXDigit hexTerm str.reverse 0 0).map icu.refResult

/-! ### The first places -/

lemma toInt_of_lt {n : ℕ} (h : n < 2 ^ 31) : toInt n = some n := if_pos h

lemma toInt_of_le {n : ℕ} (h : 2 ^ 31 ≤ n) : toInt n = none := if_neg (by omega)

section
variable {isDig : UInt8 → Bool} {term : UInt8 → ℕ → Option ℕ} {c : UInt8} {s : Str}
  {pos num val : ℕ}

lemma refLoop_cons_of_none (hc : isDig c = true) (hterm : term c pos = none) :
    refLoop isDig term (c :: s) pos num = none := by
  simp [refLoop, hc, hterm]

lemma refLoop_cons_of_lt (hc : isDig c = true) (hterm : term c pos = some val)
    (hsum : num + val < 2 ^ 31) (hmax : ucharMaxValue < num + val) :
    refLoop isDig term (c :: s) pos num = some none := by
  simp [refLoop, hc, hterm, toInt_of_lt hsum, hmax]

lemma refLoop_cons_of_le (hc : isDig c = true) (hterm : term c pos = some val)
    (hmax : num + val ≤ ucharMaxValue) :
    refLoop isDig term (c :: s) pos num =
      (toInt (pos + 1)).bind fun pos => refLoop isDig term s pos (num + val) := by
  have hsum : num + val < 2 ^ 31 := by
    rw [ucharMaxValue] at hmax
    omega
  simp [refLoop, hc, hterm, toInt_of_lt hsum, Nat.not_lt.2 hmax]

/-- At the first `K` places the summand of a digit is within the range of an `int`. -/
structure Places (b K : ℕ) (isDig : UInt8 → Bool) (digit : UInt8 → ℕ)
    (term : UInt8 → ℕ → Option ℕ) : Prop where
  base_pos : 0 < b
  digit_lt : ∀ c, isDig c = true → digit c < b
  term_eq : ∀ c pos, isDig c = true → pos < K → term c pos = some (digit c * b ^ pos)
  pow_le : b ^ K ≤ 2 ^ 31
  lt_int : K < 2 ^ 31

variable {b K : ℕ} {digit : UInt8 → ℕ}

/-- The first places are read without an error. -/
lemma refLoop_low (h : Places b K isDig digit term) (hs : ∀ c ∈ s, isDig c = true) (hpos : pos ≤ K)
    (hnum : num < b ^ pos) (hmax : num ≤ ucharMaxValue) :
    refLoop isDig term s pos num =
      if ucharMaxValue < (num + b ^ pos * Nat.ofDigits b (s.map digit)) % b ^ K then some none
      else refLoop isDig term (s.drop (K - pos)) K
        ((num + b ^ pos * Nat.ofDigits b (s.map digit)) % b ^ K) := by
  induction s generalizing pos num with
  | nil =>
      have hpow : b ^ pos ≤ b ^ K := Nat.pow_le_pow_right h.base_pos hpos
      have hmod : num % b ^ K = num := Nat.mod_eq_of_lt (by omega)
      rw [List.map_nil, Nat.ofDigits_nil, Nat.mul_zero, Nat.add_zero, hmod, if_neg (by omega),
        List.drop_nil, refLoop, refLoop]
  | cons c s ih =>
      have hc : isDig c = true := hs c (by simp)
      have hrest : ∀ d ∈ s, isDig d = true := fun d hd => hs d (by simp [hd])
      rcases Nat.eq_or_lt_of_le hpos with rfl | hlt
      · have hmod : (num + b ^ pos * Nat.ofDigits b ((c :: s).map digit)) % b ^ pos = num := by
          rw [Nat.add_mul_mod_self_left, Nat.mod_eq_of_lt hnum]
        rw [hmod, if_neg (by omega), Nat.sub_self, List.drop_zero]
      · have hterm := h.term_eq c pos hc hlt
        have hval : num + digit c * b ^ pos < b ^ (pos + 1) :=
          calc num + digit c * b ^ pos < b ^ pos + digit c * b ^ pos := by omega
            _ = (digit c + 1) * b ^ pos := by ring
            _ ≤ b * b ^ pos := Nat.mul_le_mul_right _ (h.digit_lt c hc)
            _ = b ^ (pos + 1) := by ring
        have hpow : b ^ (pos + 1) ≤ b ^ K := Nat.pow_le_pow_right h.base_pos hlt
        have htotal : num + b ^ pos * Nat.ofDigits b ((c :: s).map digit) =
            num + digit c * b ^ pos + b ^ (pos + 1) * Nat.ofDigits b (s.map digit) := by
          rw [List.map_cons, Nat.ofDigits_cons]
          ring
        rw [htotal]
        by_cases hbig : ucharMaxValue < num + digit c * b ^ pos
        · -- the later digits do not change the places that were read
          have hmod := Nat.mod_le ((num + digit c * b ^ pos +
            b ^ (pos + 1) * Nat.ofDigits b (s.map digit)) % b ^ K) (b ^ (pos + 1))
          rw [Nat.mod_mod_of_dvd _ (pow_dvd_pow b hlt), Nat.add_mul_mod_self_left,
            Nat.mod_eq_of_lt hval] at hmod
          have hsum := h.pow_le
          rw [refLoop_cons_of_lt hc hterm (by omega) hbig, if_pos (by omega)]
        · have hint := h.lt_int
          have hdrop : (c :: s).drop (K - pos) = s.drop (K - (pos + 1)) := by
            rw [show K - pos = K - (pos + 1) + 1 by omega, List.drop_succ_cons]
          rw [refLoop_cons_of_le hc hterm (Nat.not_lt.1 hbig), toInt_of_lt (by omega),
            Option.bind_some, ih hrest hlt hval (Nat.not_lt.1 hbig), hdrop]

/-- The number of a reference up to its first `K` places decides whether it is read further. -/
lemma refLoop_eq (h : Places b K isDig digit term) (hs : ∀ c ∈ s, isDig c = true) :
    refLoop isDig term s 0 0 =
      if ucharMaxValue < Nat.ofDigits b (s.map digit) % b ^ K then some none
      else refLoop isDig term (s.drop K) K (Nat.ofDigits b (s.map digit) % b ^ K) := by
  have hlow := refLoop_low h hs (Nat.zero_le K) (show 0 < b ^ 0 by simp) (Nat.zero_le _)
  simpa using hlow

/-- The number of the digits at the other places. -/
lemma ofDigits_drop (h : Places b K isDig digit term) (hs : ∀ c ∈ s, isDig c = true) :
    Nat.ofDigits b ((s.drop K).map digit) = Nat.ofDigits b (s.map digit) / b ^ K := by
  rw [List.map_drop, Nat.ofDigits_div_pow_eq_ofDigits_drop K h.base_pos]
  intro x hx
  obtain ⟨c, hc, rfl⟩ := List.mem_map.1 hx
  exact h.digit_lt c (hs c hc)

end

/-! ### Decimal references -/

lemma mulTens_eq (pos : ℕ) {val : ℕ} (h : val < 2 ^ 31) :
    mulTens pos val = toInt (val * 10 ^ pos) := by
  induction pos generalizing val with
  | zero => rw [mulTens, pow_zero, Nat.mul_one, toInt_of_lt h]
  | succ pos ih =>
      rw [mulTens, pow_succ', ← Nat.mul_assoc]
      by_cases hval : val * 10 < 2 ^ 31
      · rw [toInt_of_lt hval, Option.bind_eq_bind, Option.bind_some, ih hval]
      · have hpow : val * 10 ≤ val * 10 * 10 ^ pos := Nat.le_mul_of_pos_right _ (by positivity)
        rw [toInt_of_le (by omega), toInt_of_le (by omega)]
        rfl

lemma decDigit_lt {c : UInt8} (h : isDigit c = true) : decDigit c < 10 := by
  simp only [isDigit, Bool.and_eq_true, decide_eq_true_eq, UInt8.le_iff_toNat_le] at h
  have hlow : (0x30 : UInt8).toNat = 48 := rfl
  have hhigh : (0x39 : UInt8).toNat = 57 := rfl
  rw [decDigit, UInt8.toNat_sub_of_le _ _ (UInt8.le_iff_toNat_le.2 h.1)]
  omega

lemma decTerm_eq {c : UInt8} (h : isDigit c = true) (pos : ℕ) :
    decTerm c pos = toInt (decDigit c * 10 ^ pos) :=
  mulTens_eq pos (by have := decDigit_lt h; omega)

lemma decPlaces : Places 10 9 isDigit decDigit decTerm where
  base_pos := by decide
  digit_lt _ := decDigit_lt
  term_eq c pos hc hpos := by
    have hdigit := decDigit_lt hc
    have hpow : 10 ^ pos ≤ 10 ^ 8 := Nat.pow_le_pow_right (by decide) (by omega)
    have hterm : decDigit c * 10 ^ pos ≤ 9 * 10 ^ 8 := Nat.mul_le_mul (by omega) hpow
    rw [decTerm_eq hc, toInt_of_lt (by omega)]
  pow_le := by decide
  lt_int := by decide

/-- From the eleventh place on only zeros are read. -/
lemma decLoop_high {s : Str} {pos num : ℕ} (hs : ∀ c ∈ s, isDigit c = true) (hpos : 10 ≤ pos)
    (hint : pos < 2 ^ 31) (hnum : num ≤ ucharMaxValue) :
    refLoop isDigit decTerm s pos num =
      if Nat.ofDigits 10 (s.map decDigit) = 0 ∧ pos + s.length < 2 ^ 31 then some (some num)
      else none := by
  induction s generalizing pos with
  | nil => rw [List.map_nil, Nat.ofDigits_nil, if_pos ⟨rfl, by simpa using hint⟩, refLoop]
  | cons c s ih =>
      have hc : isDigit c = true := hs c (by simp)
      have hrest : ∀ d ∈ s, isDigit d = true := fun d hd => hs d (by simp [hd])
      rw [List.map_cons, Nat.ofDigits_cons, List.length_cons]
      rcases Nat.eq_zero_or_pos (decDigit c) with hzero | hdigit
      · have hterm : decTerm c pos = some 0 := by rw [decTerm_eq hc, hzero, Nat.zero_mul]; rfl
        rw [refLoop_cons_of_le hc hterm (by simpa using hnum)]
        by_cases hnext : pos + 1 < 2 ^ 31
        · rw [toInt_of_lt hnext, Option.bind_some, Nat.add_zero num, ih hrest (by omega) hnext,
            hzero]
          congr 1
          simp only [Nat.zero_add, eq_iff_iff]
          omega
        · rw [toInt_of_le (by omega), if_neg (by omega)]
          rfl
      · have hpow : 10 ^ 10 ≤ 10 ^ pos := Nat.pow_le_pow_right (by decide) hpos
        have hbig : 10 ^ pos ≤ decDigit c * 10 ^ pos := Nat.le_mul_of_pos_left _ hdigit
        rw [refLoop_cons_of_none hc (by rw [decTerm_eq hc, toInt_of_le (by omega)]),
          if_neg (by omega)]

/-- The tenth place can be one or two, which ends the loop. -/
lemma decLoop_nine {s : Str} {num : ℕ} (hs : ∀ c ∈ s, isDigit c = true)
    (hnum : num ≤ ucharMaxValue) {u : ℕ} (hu : Nat.ofDigits 10 (s.map decDigit) = u) :
    refLoop isDigit decTerm s 9 num =
      if u = 0 ∧ 9 + s.length < 2 ^ 31 then some (some num)
      else if u % 10 = 1 ∨ u % 10 = 2 then some none
      else none := by
  cases s with
  | nil =>
      rw [List.map_nil, Nat.ofDigits_nil] at hu
      simp [refLoop, ← hu]
  | cons c s =>
      have hc : isDigit c = true := hs c (by simp)
      have hrest : ∀ d ∈ s, isDigit d = true := fun d hd => hs d (by simp [hd])
      have hdigit := decDigit_lt hc
      have hterm := decTerm_eq hc 9
      rw [List.map_cons, Nat.ofDigits_cons] at hu
      rw [ucharMaxValue] at hnum
      rw [List.length_cons]
      by_cases hzero : decDigit c = 0
      · rw [hzero, Nat.zero_mul, toInt_of_lt (by omega)] at hterm
        rw [refLoop_cons_of_le hc hterm (by rw [ucharMaxValue]; omega), toInt_of_lt (by omega),
          Option.bind_some, decLoop_high hrest (by omega) (by omega) (by rw [ucharMaxValue]; omega)]
        have hmod : ¬(u % 10 = 1 ∨ u % 10 = 2) := by omega
        rw [if_neg hmod]
        congr 1
        simp only [eq_iff_iff]
        omega
      · rw [if_neg (by omega)]
        by_cases hsmall : decDigit c ≤ 2
        · rw [toInt_of_lt (by omega)] at hterm
          rw [refLoop_cons_of_lt hc hterm (by omega) (by rw [ucharMaxValue]; omega),
            if_pos (by omega)]
        · rw [toInt_of_le (by omega)] at hterm
          rw [refLoop_cons_of_none hc hterm, if_neg (by omega)]

/-- The number of a decimal reference. -/
def decValue (str : Str) : ℕ := Nat.ofDigits 10 (str.reverse.map decDigit)

/-- The decimal references that are read without an error. -/
def DecDefined (str : Str) : Prop :=
  (decValue str ≤ ucharMaxValue ∧ str.length < 2 ^ 31) ∨
    (ucharMaxValue < decValue str ∧ (ucharMaxValue < decValue str % 10 ^ 9 ∨
      decValue str / 10 ^ 9 % 10 = 1 ∨ decValue str / 10 ^ 9 % 10 = 2))

instance (str : Str) : Decidable (DecDefined str) := by
  unfold DecDefined
  infer_instance

/-- The text that a reference with a number stands for. -/
def refValue (icu : Icu) (v : ℕ) : Str :=
  if v ≤ ucharMaxValue then (icu.cp2utf8 v).getD [] else []

lemma decNumcharRef_eq (icu : Icu) {str : Str} (hs : ∀ c ∈ str, isDigit c = true) :
    icu.decNumcharRef str =
      if DecDefined str then some (icu.refValue (decValue str)) else none := by
  have hrev : ∀ c ∈ str.reverse, isDigit c = true := fun c hc => hs c (List.mem_reverse.1 hc)
  rw [decNumcharRef, refLoop_eq decPlaces hrev, ← decValue]
  have hdiv := Nat.div_add_mod (decValue str) (10 ^ 9)
  by_cases hlow : ucharMaxValue < decValue str % 10 ^ 9
  · have hbig : ucharMaxValue < decValue str := by omega
    have hdef : DecDefined str := Or.inr ⟨hbig, Or.inl hlow⟩
    rw [if_pos hlow, if_pos hdef, refValue, if_neg (by omega)]
    rfl
  · rw [if_neg hlow, decLoop_nine (fun c hc => hrev c (List.mem_of_mem_drop hc)) (by omega)
      (ofDigits_drop decPlaces hrev), List.length_drop, List.length_reverse, ← decValue]
    have hmax : ucharMaxValue < 10 ^ 9 := by decide
    by_cases hu : decValue str / 10 ^ 9 = 0
    · have hv : decValue str ≤ ucharMaxValue := by omega
      have hmod : decValue str % 10 ^ 9 = decValue str := by omega
      by_cases hlen : str.length < 2 ^ 31
      · have hdef : DecDefined str := Or.inl ⟨hv, hlen⟩
        rw [if_pos ⟨hu, by omega⟩, if_pos hdef, hmod]
        rfl
      · rw [if_neg (by omega), hu, if_neg (by simp), if_neg (by rw [DecDefined]; omega)]
        rfl
    · have hv : ucharMaxValue < decValue str := by omega
      rw [if_neg (by omega)]
      by_cases hdigit : decValue str / 10 ^ 9 % 10 = 1 ∨ decValue str / 10 ^ 9 % 10 = 2
      · have hdef : DecDefined str := Or.inr ⟨hv, Or.inr hdigit⟩
        rw [if_pos hdigit, if_pos hdef, refValue, if_neg (by omega)]
        rfl
      · rw [if_neg hdigit, if_neg (by rw [DecDefined]; omega)]
        rfl

/-! ### Hexadecimal references -/

lemma hexDigit_lt {c : UInt8} (h : isXDigit c = true) : hexDigit c < 16 :=
  (digitToXnum_xdigitToNum c h).1

lemma hexTerm_eq {pos : ℕ} (hpos : pos ≤ 7) (c : UInt8) :
    hexTerm c pos = toInt (hexDigit c * 16 ^ pos) := by
  have hpow : 2 ^ (4 * pos) = 16 ^ pos := pow_mul 2 4 pos
  rw [hexTerm, if_pos (by omega), Nat.shiftLeft_eq, hpow]

lemma hexPlaces : Places 16 7 isXDigit hexDigit hexTerm where
  base_pos := by decide
  digit_lt _ := hexDigit_lt
  term_eq c pos hc hpos := by
    have hdigit := hexDigit_lt hc
    have hpow : 16 ^ pos ≤ 16 ^ 6 := Nat.pow_le_pow_right (by decide) (by omega)
    have hterm : hexDigit c * 16 ^ pos ≤ 15 * 16 ^ 6 := Nat.mul_le_mul (by omega) hpow
    rw [hexTerm_eq (by omega), toInt_of_lt (by omega)]
  pow_le := by decide
  lt_int := by decide

/-- The eighth place can be one to seven, which ends the loop, or the last one; a ninth place is
shifted out of an `int`. -/
lemma hexLoop_seven {s : Str} {num : ℕ} (hs : ∀ c ∈ s, isXDigit c = true)
    (hnum : num ≤ ucharMaxValue) {u : ℕ} (hu : Nat.ofDigits 16 (s.map hexDigit) = u) :
    refLoop isXDigit hexTerm s 7 num =
      if 1 ≤ u % 16 ∧ u % 16 ≤ 7 then some none
      else if u % 16 = 0 ∧ s.length ≤ 1 then some (some num)
      else none := by
  cases s with
  | nil =>
      rw [List.map_nil, Nat.ofDigits_nil] at hu
      simp [refLoop, ← hu]
  | cons c s =>
      have hc : isXDigit c = true := hs c (by simp)
      have hdigit := hexDigit_lt hc
      have hterm := hexTerm_eq (Nat.le_refl 7) c
      rw [List.map_cons, Nat.ofDigits_cons] at hu
      rw [ucharMaxValue] at hnum
      by_cases hzero : hexDigit c = 0
      · rw [hzero, Nat.zero_mul, toInt_of_lt (by omega)] at hterm
        rw [refLoop_cons_of_le hc hterm (by rw [ucharMaxValue]; omega), toInt_of_lt (by omega),
          Option.bind_some, if_neg (by omega)]
        cases s with
        | nil =>
            have hlast : u % 16 = 0 := by omega
            simp [refLoop, hlast]
        | cons d s =>
            rw [refLoop_cons_of_none (hs d (by simp)) (by simp [hexTerm]), if_neg (by simp)]
      · by_cases hsmall : hexDigit c ≤ 7
        · rw [toInt_of_lt (by omega)] at hterm
          rw [refLoop_cons_of_lt hc hterm (by omega) (by rw [ucharMaxValue]; omega),
            if_pos (by omega)]
        · rw [toInt_of_le (by omega)] at hterm
          rw [refLoop_cons_of_none hc hterm, if_neg (by omega), if_neg (by omega)]

/-- The number of a hexadecimal reference. -/
def hexValue (str : Str) : ℕ := Nat.ofDigits 16 (str.reverse.map hexDigit)

/-- The hexadecimal references that are read without an error. -/
def HexDefined (str : Str) : Prop :=
  ucharMaxValue < hexValue str % 16 ^ 7 ∨
    (1 ≤ hexValue str / 16 ^ 7 % 16 ∧ hexValue str / 16 ^ 7 % 16 ≤ 7) ∨
    (hexValue str / 16 ^ 7 % 16 = 0 ∧ str.length ≤ 8)

instance (str : Str) : Decidable (HexDefined str) := by
  unfold HexDefined
  infer_instance

lemma hexValue_lt {str : Str} (hs : ∀ c ∈ str, isXDigit c = true) :
    hexValue str < 16 ^ str.length := by
  have hlt := Nat.ofDigits_lt_base_pow_length (b := 16) (l := str.reverse.map hexDigit) (by decide)
    (by
      intro x hx
      obtain ⟨c, hc, rfl⟩ := List.mem_map.1 hx
      exact hexDigit_lt (hs c (List.mem_reverse.1 hc)))
  simpa [hexValue] using hlt

lemma hexNumcharRef_eq (icu : Icu) {str : Str} (hs : ∀ c ∈ str, isXDigit c = true) :
    icu.hexNumcharRef str =
      if HexDefined str then some (icu.refValue (hexValue str)) else none := by
  have hrev : ∀ c ∈ str.reverse, isXDigit c = true := fun c hc => hs c (List.mem_reverse.1 hc)
  rw [hexNumcharRef, refLoop_eq hexPlaces hrev, ← hexValue]
  have hdiv := Nat.div_add_mod (hexValue str) (16 ^ 7)
  by_cases hlow : ucharMaxValue < hexValue str % 16 ^ 7
  · have hdef : HexDefined str := Or.inl hlow
    rw [if_pos hlow, if_pos hdef, refValue, if_neg (by omega)]
    rfl
  · have hmax : ucharMaxValue < 16 ^ 7 := by decide
    rw [if_neg hlow, hexLoop_seven (fun c hc => hrev c (List.mem_of_mem_drop hc)) (by omega)
      (ofDigits_drop hexPlaces hrev), List.length_drop, List.length_reverse, ← hexValue]
    by_cases hdigit : 1 ≤ hexValue str / 16 ^ 7 % 16 ∧ hexValue str / 16 ^ 7 % 16 ≤ 7
    · have hdef : HexDefined str := Or.inr (Or.inl hdigit)
      rw [if_pos hdigit, if_pos hdef, refValue, if_neg (by omega)]
      rfl
    · rw [if_neg hdigit]
      by_cases hlast : hexValue str / 16 ^ 7 % 16 = 0 ∧ str.length ≤ 8
      · have hdef : HexDefined str := Or.inr (Or.inr hlast)
        have hlt := hexValue_lt hs
        have hpow : 16 ^ str.length ≤ 16 ^ 8 := Nat.pow_le_pow_right (by decide) hlast.2
        have hmod : hexValue str % 16 ^ 7 = hexValue str := by omega
        rw [if_pos ⟨hlast.1, by omega⟩, if_pos hdef, hmod]
        rfl
      · rw [if_neg (by omega), if_neg (by rw [HexDefined]; omega)]
        rfl

/-- The numeric references are given the character they stand for, or nothing when there is none, if
and only if no `int` and no shift leaves its range. -/
theorem numcharRef_iff (icu : Icu) (str : Str) :
    ((∀ c ∈ str, isDigit c = true) →
      (icu.decNumcharRef str = some (icu.refValue (decValue str)) ↔ DecDefined str)) ∧
    ((∀ c ∈ str, isXDigit c = true) →
      (icu.hexNumcharRef str = some (icu.refValue (hexValue str)) ↔ HexDefined str)) := by
  constructor
  · intro hs
    rw [decNumcharRef_eq icu hs]
    simp
  · intro hs
    rw [hexNumcharRef_eq icu hs]
    simp

theorem numcharRef_iff_letter : unicode.decNumcharRef (lit "0065") = some (lit "A") ∧
    unicode.hexNumcharRef (lit "041") = some (lit "A") :=
  ⟨((numcharRef_iff unicode (lit "0065")).1 (List.all_eq_true.1 (by decide))).2 (by decide),
    ((numcharRef_iff unicode (lit "041")).2 (List.all_eq_true.1 (by decide))).2 (by decide)⟩

/-- In `3000000000` the first digit times 10^9 is no `int`, and in `000000041` the first digit is
shifted by 32 bits. -/
theorem numcharRef_out_of_range :
    unicode.decNumcharRef (lit "3000000000") = none ∧
      unicode.hexNumcharRef (lit "000000041") = none := by
  rw [decNumcharRef_eq unicode (List.all_eq_true.1 (by decide)),
    hexNumcharRef_eq unicode (List.all_eq_true.1 (by decide))]
  exact ⟨if_neg (by decide), if_neg (by decide)⟩

end Icu

end Mycelium
