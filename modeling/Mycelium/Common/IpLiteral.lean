import Mycelium.Common.Host
import Mycelium.Lib.Lines

/-!
# IP literals

The addresses that RFC 3986 allows between brackets, and which of them `Url::valid_host` accepts.
The grammar is the one that the header quotes.  The expression `RE_IPV6` is this grammar line by
line, but for the octets of an embedded IPv4 address: the class `[0-0]` in the macro `decoct`
leaves out the octets from 201 to 249 that are not a multiple of ten.  The expression `RE_IPVFUT`
has one hexadecimal digit where the grammar has any number of them, and asks for a `1` after the
dot.  An address of a future version that the expression does not match may still be accepted,
since it can have the form of a registered name.
-/

namespace Mycelium

open Lib

/-! ### The grammar -/

namespace Rfc3986

open Url (word range)

/-- `HEXDIG`; the letters of ABNF are letters of either case. -/
def hexdig : Regex UInt8 := .cls isXDigit

/-- `DIGIT`. -/
def digit : Regex UInt8 := .cls isDigit

/-- `h16 = 1*4HEXDIG`. -/
def h16 : Regex UInt8 := .seq hexdig (.upTo hexdig 3)

/-- `h16 ":"`. -/
def piece : Regex UInt8 := .seq h16 (word (lit ":"))

/-- `dec-octet`, the numbers from 0 to 255. -/
def decOctet : Regex UInt8 :=
  .any [digit,
    .cat [range 0x31 0x39, digit],
    .cat [word (lit "1"), digit, digit],
    .cat [word (lit "2"), range 0x30 0x34, digit],
    .cat [word (lit "25"), range 0x30 0x35]]

/-- `IPv4address`. -/
def ipv4Address : Regex UInt8 :=
  .cat [decOctet, word (lit "."), decOctet, word (lit "."), decOctet, word (lit "."), decOctet]

/-- `ls32 = ( h16 ":" h16 ) / IPv4address`. -/
def ls32 : Regex UInt8 := .alt (.seq piece h16) ipv4Address

/-- `[ *n( h16 ":" ) h16 ] "::"`. -/
def elision (n : ℕ) : Regex UInt8 := .seq (.opt (.seq (.upTo piece n) h16)) (word (lit "::"))

/-- `IPv6address`. -/
def ipv6Address : Regex UInt8 :=
  .any [.seq (.rep piece 6) ls32,
    .cat [word (lit "::"), .rep piece 5, ls32],
    .cat [elision 0, .rep piece 4, ls32],
    .cat [elision 1, .rep piece 3, ls32],
    .cat [elision 2, .rep piece 2, ls32],
    .cat [elision 3, .rep piece 1, ls32],
    .cat [elision 4, ls32],
    .cat [elision 5, h16],
    elision 6]

/-- `unreserved`. -/
def isUnreserved (c : UInt8) : Bool := isAlpha c || isDigit c || (lit "-._~").contains c

/-- `sub-delims`. -/
def isSubDelim (c : UInt8) : Bool := (lit "!$&'()*+,;=").contains c

/-- The characters of the text of a future version, `unreserved / sub-delims / ":"`. -/
def isFuture (c : UInt8) : Bool := isUnreserved c || isSubDelim c || c == Byte.colon

/-- `IPvFuture = "v" 1*HEXDIG "." 1*( unreserved / sub-delims / ":" )`. -/
def ipvFuture : Regex UInt8 :=
  .cat [.alt (.chr 0x76) (.chr 0x56), .plus hexdig, word (lit "."), .plus (.cls isFuture)]

/-- What stands between the brackets of an `IP-literal`. -/
def ipLiteral : Regex UInt8 := .alt ipv6Address ipvFuture

end Rfc3986

namespace Url

/-- A dot. -/
def dot : UInt8 := 0x2E

lemma matches_word_iff {s w : Str} : (word s).Matches w ↔ w = s := by
  have h := Regex.matches_cat_image_iff (f := (id : UInt8 → UInt8)) (s := s) (w := w)
  rwa [List.map_id, List.map_id] at h

/-! ### Octets -/

/-- The octets of the grammar that `decoct` leaves out: 201 to 249 without the multiples of
ten. -/
def isMissed : Str → Bool
  | [a, b, c] => a == 0x32 && (0x30 ≤ b && b ≤ 0x34) && (0x31 ≤ c && c ≤ 0x39)
  | _ => false

lemma decoct_iff_of_decOctet {o : Str} (h : Rfc3986.decOctet.Matches o) :
    decoct.Matches o ↔ isMissed o = false := by
  have h1 : word (lit "1") = .cls fun c => c == 0x31 := rfl
  have h2 : word (lit "2") = .cls fun c => c == 0x32 := rfl
  have h25 : word (lit "25") = .seq (.cls fun c => c == 0x32) (.cls fun c => c == 0x35) := rfl
  simp only [Rfc3986.decOctet, Rfc3986.digit, Regex.any, Regex.cat, h1, h2, h25, range,
    Regex.matches_alt_iff] at h
  simp only [decoct, digit, Regex.any, Regex.cat, h2, h25, range, Regex.matches_alt_iff]
  -- both sides are read off the letters, for each number of them
  rcases o with _ | ⟨a, _ | ⟨b, _ | ⟨c, _ | ⟨d, o⟩⟩⟩⟩
  · simp at h
  · simpa [isMissed] using h
  · simp only [isDigit, isMissed, Regex.matches_cls_cons, Regex.matches_cls_nil,
      Regex.matches_seq_cls_cons, Regex.matches_seq_seq_iff, Regex.matches_opt_seq_iff, beq_iff_eq,
      Bool.and_eq_true, decide_eq_true_eq, reduceCtorEq] at h ⊢
    grind
  · simp only [isDigit, isMissed, Regex.matches_cls_cons, Regex.matches_seq_cls_cons,
      Regex.matches_seq_seq_iff, Regex.matches_opt_seq_iff, beq_iff_eq, Bool.and_eq_true,
      Bool.and_eq_false_imp, decide_eq_true_eq, decide_eq_false_iff_not, reduceCtorEq] at h ⊢
    grind
  · simp at h

/-- Four words of `r` with dots between them. -/
def quad (r : Regex UInt8) : Regex UInt8 :=
  .cat [r, word (lit "."), r, word (lit "."), r, word (lit "."), r]

lemma matches_quad_iff_exists {r : Regex UInt8} {y : Str} :
    (quad r).Matches y ↔ ∃ a b c d, [dot].intercalate [a, b, c, d] = y ∧
      r.Matches a ∧ r.Matches b ∧ r.Matches c ∧ r.Matches d := by
  have hstep : ∀ {s : Regex UInt8} {w : Str}, (Regex.seq r (.seq (word (lit ".")) s)).Matches w ↔
      ∃ a v, r.Matches a ∧ s.Matches v ∧ a ++ dot :: v = w := by
    intro s w
    simp only [Regex.matches_seq_iff, matches_word_iff]
    constructor
    · rintro ⟨a, _, ha, ⟨_, v, rfl, hv, rfl⟩, rfl⟩
      exact ⟨a, v, ha, hv, rfl⟩
    · rintro ⟨a, v, ha, hv, rfl⟩
      exact ⟨a, dot :: v, ha, ⟨[dot], v, rfl, hv, rfl⟩, rfl⟩
  simp only [quad, Regex.cat, hstep]
  constructor
  · rintro ⟨a, _, ha, ⟨b, _, hb, ⟨c, d, hc, hd, rfl⟩, rfl⟩, rfl⟩
    exact ⟨a, b, c, d, by simp [List.intercalate], ha, hb, hc, hd⟩
  · rintro ⟨a, b, c, d, rfl, ha, hb, hc, hd⟩
    exact ⟨a, _, ha, ⟨b, _, hb, ⟨c, d, hc, hd, rfl⟩, rfl⟩, by simp [List.intercalate]⟩

lemma matches_quad_iff {r : Regex UInt8} (hr : r.AllCls fun p => p dot = false) {y : Str} :
    (quad r).Matches y ↔ (y.splitOn dot).length = 4 ∧ ∀ o ∈ y.splitOn dot, r.Matches o := by
  rw [matches_quad_iff_exists]
  constructor
  · rintro ⟨a, b, c, d, rfl, ha, hb, hc, hd⟩
    have hall : ∀ o ∈ [a, b, c, d], r.Matches o := by simp [ha, hb, hc, hd]
    rw [List.splitOn_intercalate dot (fun o ho => (hall o ho).notMem hr) (by simp)]
    exact ⟨rfl, hall⟩
  · rintro ⟨hlen, hall⟩
    obtain ⟨a, b, c, d, hsplit⟩ := List.length_eq_four.1 hlen
    have hjoin : [dot].intercalate (y.splitOn dot) = y := List.intercalate_splitOn dot
    rw [hsplit] at hall hjoin
    simp only [List.forall_mem_cons] at hall
    exact ⟨a, b, c, d, hjoin, hall.1, hall.2.1, hall.2.2.1, hall.2.2.2.1⟩

/-! ### The nine lines -/

/-- The nine lines of `IPv6address`, with `q` for the address of four octets. -/
def nineLines (q : Regex UInt8) : Regex UInt8 :=
  let ls32 := .alt (.seq h16Colon h16) q
  .any [.seq (.rep h16Colon 6) ls32,
    .cat [word (lit "::"), .rep h16Colon 5, ls32],
    .cat [ipv6Front 0, .rep h16Colon 4, ls32],
    .cat [ipv6Front 1, .rep h16Colon 3, ls32],
    .cat [ipv6Front 2, .rep h16Colon 2, ls32],
    .cat [ipv6Front 3, .rep h16Colon 1, ls32],
    .cat [ipv6Front 4, ls32],
    .cat [ipv6Front 5, h16],
    ipv6Front 6]

lemma reIpv6_eq : reIpv6 = nineLines (quad decoct) := rfl

lemma ipv6Address_eq : Rfc3986.ipv6Address = nineLines (quad Rfc3986.decOctet) := rfl

/-- What stands before an address of four octets, in the seven lines that end in `ls32`. -/
def sevenFronts : Regex UInt8 :=
  .any [.rep h16Colon 6,
    .cat [word (lit "::"), .rep h16Colon 5],
    .cat [ipv6Front 0, .rep h16Colon 4],
    .cat [ipv6Front 1, .rep h16Colon 3],
    .cat [ipv6Front 2, .rep h16Colon 2],
    .cat [ipv6Front 3, .rep h16Colon 1],
    ipv6Front 4]

lemma before_nineLines : Regex.Before nineLines sevenFronts := by
  have hls := fun r => Regex.before_seq_alt r (.seq h16Colon h16)
  exact (hls _).alt (((hls _).seq _).alt (((hls _).seq _).alt (((hls _).seq _).alt
    (((hls _).seq _).alt (((hls _).seq _).alt ((hls _).alt_const _))))))

/-- The class of a colon. -/
def OnlyColon (p : UInt8 → Bool) : Prop := ∀ c, p c = true → c = Byte.colon

lemma onlyColon_chr : OnlyColon fun c => c == Byte.colon := fun _ hc => beq_iff_eq.1 hc

lemma lastCls_h16Colon (n : ℕ) : (Regex.rep h16Colon n).LastCls OnlyColon := by
  induction n with
  | zero => trivial
  | succ n ih => exact ⟨ih, fun _ => ⟨onlyColon_chr, fun hnull => absurd hnull (by decide)⟩⟩

lemma lastCls_colons : (word (lit "::")).LastCls OnlyColon :=
  ⟨onlyColon_chr, fun _ => onlyColon_chr⟩

lemma lastCls_ipv6Front (n : ℕ) : (ipv6Front n).LastCls OnlyColon :=
  ⟨lastCls_colons, fun hnull => absurd hnull (by decide)⟩

lemma lastCls_sevenFronts : sevenFronts.LastCls OnlyColon := by
  have hfront (m n : ℕ) : (Regex.seq (ipv6Front m) (.rep h16Colon n)).LastCls OnlyColon :=
    ⟨lastCls_h16Colon n, fun _ => lastCls_ipv6Front m⟩
  exact ⟨lastCls_h16Colon 6, ⟨lastCls_h16Colon 5, fun _ => lastCls_colons⟩, hfront 0 4, hfront 1 3,
    hfront 2 2, hfront 3 1, lastCls_ipv6Front 4⟩

lemma someCls_ipv6Front (n : ℕ) : (ipv6Front n).SomeCls OnlyColon := Or.inr (Or.inl onlyColon_chr)

lemma someCls_nineLines (q : Regex UInt8) : (nineLines q).SomeCls OnlyColon := by
  have hfront := someCls_ipv6Front
  exact ⟨Or.inl (Or.inl (Or.inr onlyColon_chr)), Or.inl (Or.inl onlyColon_chr), Or.inl (hfront 0),
    Or.inl (hfront 1), Or.inl (hfront 2), Or.inl (hfront 3), Or.inl (hfront 4), Or.inl (hfront 5),
    hfront 6⟩

/-- What follows the last colon. -/
def lastPiece (h : Str) : Str := leftover (· == Byte.colon) h

/-- The octets of an address: the parts of its last piece, if it has dots. -/
def octets (h : Str) : List Str := if dot ∈ lastPiece h then (lastPiece h).splitOn dot else []

lemma lastPiece_append {x y : Str} (hx : ∀ c ∈ x.getLast?, c = Byte.colon) (hy : Byte.colon ∉ y) :
    lastPiece (x ++ y) = y := by
  have hy' : ∀ c ∈ y, (c == Byte.colon) = false := by
    intro c hc
    simpa using fun heq : c = Byte.colon => hy (heq ▸ hc)
  rcases x.eq_nil_or_concat with rfl | ⟨x, c, rfl⟩
  · exact leftover_of_forall hy'
  · rw [List.concat_eq_append] at hx ⊢
    rw [lastPiece, List.append_assoc, List.singleton_append,
      leftover_append_cons x y (by simpa using hx c), leftover_of_forall hy']

lemma octets_eq_nil {h : Str} (hdot : dot ∉ h) : octets h = [] := by
  refine if_neg fun hmem => hdot ?_
  exact (List.rtakeWhile_suffix _ _).subset hmem

lemma octets_of_length {h : Str} (hlen : ((lastPiece h).splitOn dot).length = 4) :
    octets h = (lastPiece h).splitOn dot := by
  refine if_pos ?_
  by_contra hdot
  rw [List.splitOn_eq_singleton hdot] at hlen
  exact absurd hlen (by simp)

/-- The address ends in four parts with dots between them, after one of the seven fronts. -/
def IsDotted (h : Str) : Prop :=
  (∃ x, sevenFronts.Matches x ∧ x ++ lastPiece h = h) ∧ (octets h).length = 4

/-- The lines match the addresses without dots, and those with dots whose octets match `r`. -/
lemma matches_nineLines_iff {r : Regex UInt8} (hdot : r.AllCls fun p => p dot = false)
    (hcolon : r.AllCls fun p => p Byte.colon = false) {h : Str} :
    (nineLines (quad r)).Matches h ↔
      (nineLines .empty).Matches h ∨ IsDotted h ∧ ∀ o ∈ octets h, r.Matches o := by
  rw [before_nineLines]
  refine or_congr_right ?_
  rw [Regex.matches_seq_iff]
  constructor
  · rintro ⟨x, y, hx, hy, rfl⟩
    have hsep : (word (lit ".")).AllCls fun p => p Byte.colon = false := by decide
    have hlast : lastPiece (x ++ y) = y :=
      lastPiece_append (hx.getLast? lastCls_sevenFronts)
        (hy.notMem ⟨hcolon, hsep, hcolon, hsep, hcolon, hsep, hcolon⟩)
    rw [matches_quad_iff hdot] at hy
    have hoct : octets (x ++ y) = y.splitOn dot := by
      have := octets_of_length (h := x ++ y)
      rw [hlast] at this
      exact this hy.1
    rw [IsDotted, hoct]
    exact ⟨⟨⟨x, hx, by rw [hlast]⟩, hy.1⟩, hy.2⟩
  · rintro ⟨⟨⟨x, hx, heq⟩, hlen⟩, hall⟩
    have hmem : dot ∈ lastPiece h := by
      by_contra hmem
      rw [octets, if_neg hmem] at hlen
      exact absurd hlen (by simp)
    rw [octets, if_pos hmem] at hlen hall
    exact ⟨x, lastPiece h, hx, (matches_quad_iff hdot).2 ⟨hlen, hall⟩, heq⟩

lemma octets_of_nineLines_empty {h : Str} (hm : (nineLines .empty).Matches h) : octets h = [] :=
  octets_eq_nil (hm.notMem (by decide))

/-- Among the addresses of the grammar, `RE_IPV6` matches those without a missed octet. -/
lemma reIpv6_iff_of_ipv6Address {h : Str} (hm : Rfc3986.ipv6Address.Matches h) :
    reIpv6.Matches h ↔ ∀ o ∈ octets h, isMissed o = false := by
  rw [ipv6Address_eq, matches_nineLines_iff (by decide) (by decide)] at hm
  rw [reIpv6_eq, matches_nineLines_iff (by decide) (by decide)]
  rcases hm with hm | ⟨hdotted, hall⟩
  · rw [octets_of_nineLines_empty hm]
    exact ⟨fun _ => by simp, fun _ => Or.inl hm⟩
  · have hoct : (∀ o ∈ octets h, decoct.Matches o) ↔ ∀ o ∈ octets h, isMissed o = false :=
      forall₂_congr fun o ho => decoct_iff_of_decOctet (hall o ho)
    rw [← hoct]
    constructor
    · rintro (hm | ⟨-, hall'⟩)
      · rw [octets_of_nineLines_empty hm]
        simp
      · exact hall'
    · exact fun hall' => Or.inr ⟨hdotted, hall'⟩

/-! ### Addresses without escapes -/

lemma validHost_iff_of_notMem {h : Str} (hpct : Byte.percent ∉ h) (hne : h ≠ []) :
    validHost h = true ↔ HostMatches h := by
  have hid : unescapeSafe h = h := by simp [unescapeSafe, unescapeIf, hpct]
  rw [validHost_iff, hid, or_iff_right hne]

lemma validHost_iff_of_ipv6Address {h : Str} (hm : Rfc3986.ipv6Address.Matches h) :
    validHost h = true ↔ ∀ o ∈ octets h, isMissed o = false := by
  obtain ⟨c, hc, rfl⟩ := hm.exists_mem (q := (· = Byte.colon)) (someCls_nineLines _)
  have hpct : Byte.percent ∉ h := hm.notMem (by decide)
  rw [validHost_iff_of_notMem hpct (List.ne_nil_of_mem hc), ← reIpv6_iff_of_ipv6Address hm]
  refine ⟨?_, fun h6 => Or.inr (Or.inr (Or.inl h6))⟩
  rintro (hhost | hfut | h6 | h4)
  · exact absurd hc (hhost.notMem (by decide))
  · -- no class of an IPv6 address has the `v`
    obtain ⟨d, hd, rfl⟩ := hfut.exists_mem (q := (· = 0x76)) (Or.inl fun c hc => beq_iff_eq.1 hc)
    exact absurd hd (hm.notMem (by decide))
  · exact h6
  · exact absurd hc (h4.notMem (by decide))

/-! ### Future versions -/

/-- The text has the form that `RE_HOST` asks for after its first character: letters, digits, dots
and hyphens, and no hyphen at the end. -/
def nameLike (h : Str) : Bool :=
  h.all (fun c => isAlnum c || (lit ".-").contains c) && h.getLast? != some 0x2D

/-- The text begins as `RE_IPVFUT` asks for, whatever the digit is. -/
def versionOne (h : Str) : Bool := h.head? == some 0x76 && (h.drop 2).take 2 == [dot, 0x31]

lemma nameEnd_iff (d : UInt8) : (isAlnum d || (lit ".").contains d) = true ↔
    (isAlnum d || (lit ".-").contains d) = true ∧ d ≠ 0x2D := by
  have hone : lit "." = [dot] := rfl
  have htwo : lit ".-" = [dot, 0x2D] := rfl
  have hhyphen : isAlnum 0x2D = false := by decide
  have hdot : dot ≠ 0x2D := by decide
  simp only [hone, htwo, Bool.or_eq_true, List.contains_iff_mem, List.mem_cons, List.not_mem_nil,
    or_false]
  grind

lemma matches_reHost_iff {h : Str} :
    reHost.Matches h ↔ (∃ c ∈ h.head?, isAlnum c = true) ∧ nameLike h = true := by
  cases h with
  | nil => simp [reHost, alnum]
  | cons c u =>
      simp only [reHost, alnum, alnumOr, Regex.matches_seq_cls_cons, Regex.matches_opt_iff,
        List.head?_cons, Option.mem_some_iff, exists_eq_left', nameLike, Bool.and_eq_true,
        List.all_eq_true, bne_iff_ne]
      refine and_congr_right fun hc => ?_
      rcases u.eq_nil_or_concat with rfl | ⟨v, d, rfl⟩
      · have hne : c ≠ 0x2D := by
          rintro rfl
          exact absurd hc (by decide)
        simp [hc, hne]
      · have hlast : (c :: (v ++ [d])).getLast? = some d := by
          rw [← List.cons_append, List.getLast?_concat]
        rw [List.concat_eq_append, Regex.matches_seq_cls_concat, Regex.matches_star_cls_iff,
          nameEnd_iff, hlast]
        simp [hc, or_imp, forall_and, and_assoc]

lemma isFuture_eq (c : UInt8) :
    Rfc3986.isFuture c = (isAlnum c || (lit "._~!$&'()*+,;=:-").contains c) := by
  have hperm : (lit "._~!$&'()*+,;=:-").Perm
      (lit "-._~" ++ (lit "!$&'()*+,;=" ++ [Byte.colon])) := by
    decide
  rw [Bool.eq_iff_iff]
  simp only [Rfc3986.isFuture, Rfc3986.isUnreserved, Rfc3986.isSubDelim, isAlnum, Bool.or_eq_true,
    List.contains_iff_mem, hperm.mem_iff, List.mem_append, List.mem_singleton, beq_iff_eq, or_assoc]

lemma isFuture_of_isXDigit {c : UInt8} (h : isXDigit c = true) : Rfc3986.isFuture c = true := by
  rw [isFuture_eq, isAlnum_of_isXDigit h, Bool.true_or]

lemma forall_isFuture {h : Str} (hm : Rfc3986.ipvFuture.Matches h) :
    ∀ c ∈ h, Rfc3986.isFuture c = true := by
  have hhex : ∀ c, isXDigit c = true → Rfc3986.isFuture c = true := fun _ => isFuture_of_isXDigit
  have hfut : ∀ c, Rfc3986.isFuture c = true → Rfc3986.isFuture c = true := fun _ hc => hc
  have hchr : ∀ d, Rfc3986.isFuture d = true → ∀ c, (c == d) = true → Rfc3986.isFuture c = true :=
    fun d hd c hc => beq_iff_eq.1 hc ▸ hd
  exact hm.forall_mem ⟨⟨hchr 0x76 (by decide), hchr 0x56 (by decide)⟩, ⟨hhex, hhex⟩,
    hchr dot (by decide), hfut, hfut⟩

lemma reIpvfut_iff_of_ipvFuture {h : Str} (hm : Rfc3986.ipvFuture.Matches h) :
    reIpvfut.Matches h ↔ versionOne h = true := by
  have hall := forall_isFuture hm
  have hv : word (lit "v") = .cls fun c => c == 0x76 := rfl
  have hone : word (lit ".1") = .seq (.cls fun c => c == dot) (.cls fun c => c == 0x31) := rfl
  have hfut : alnumOr (lit "._~!$&'()*+,;=:-") = .cls Rfc3986.isFuture :=
    congrArg Regex.cls (funext fun c => (isFuture_eq c).symm)
  simp only [Rfc3986.ipvFuture, Rfc3986.hexdig, Regex.cat, Regex.chr, Regex.plus,
    Regex.matches_alt_seq_iff] at hm
  simp only [reIpvfut, xdigit, Regex.cat, hv, hone, hfut]
  rcases h with _ | ⟨a, _ | ⟨b, _ | ⟨c, _ | ⟨d, t⟩⟩⟩⟩
  · simp at hm
  · simp at hm
  · simp [versionOne]
  · simp [versionOne]
  · have hb : isXDigit b = true := by
      simp only [Regex.matches_seq_cls_cons, Regex.matches_seq_seq_iff] at hm
      exact hm.elim (·.2.1) (·.2.1)
    have ht : (Regex.star (.cls Rfc3986.isFuture)).Matches t :=
      Regex.matches_star_cls_iff.2 fun x hx => hall x (by simp [hx])
    simp [versionOne, hb, ht]

/-- Among the addresses of future versions, those that have the form of a name are accepted, and
those of one digit whose text begins with a `1`. -/
lemma validHost_iff_of_ipvFuture {h : Str} (hm : Rfc3986.ipvFuture.Matches h) :
    validHost h = true ↔ nameLike h = true ∨ versionOne h = true := by
  have hpct : Byte.percent ∉ h := hm.notMem (by decide)
  obtain ⟨c, t, hc, rfl⟩ : ∃ c t, (c = 0x76 ∨ c = 0x56) ∧ h = c :: t := by
    cases h with
    | nil => simp [Rfc3986.ipvFuture, Regex.cat, Regex.chr] at hm
    | cons c t =>
        simp only [Rfc3986.ipvFuture, Regex.cat, Regex.chr, Regex.matches_alt_seq_iff,
          Regex.matches_seq_cls_cons, beq_iff_eq] at hm
        exact ⟨c, t, hm.imp And.left And.left, rfl⟩
  have halnum : isAlnum c = true := by rcases hc with rfl | rfl <;> decide
  rw [validHost_iff_of_notMem hpct (by simp), HostMatches, matches_reHost_iff,
    reIpvfut_iff_of_ipvFuture hm]
  have h6 : ¬reIpv6.Matches (c :: t) := by
    intro h6
    rcases hc with rfl | rfl
    · exact h6.notMem (by decide) List.mem_cons_self
    · exact h6.notMem (by decide) List.mem_cons_self
  have h4 : ¬reIpv4.Matches (c :: t) := by
    intro h4
    rcases hc with rfl | rfl
    · exact h4.notMem (by decide) List.mem_cons_self
    · exact h4.notMem (by decide) List.mem_cons_self
  simp [h6, h4, halnum]

/-! ### IP literals -/

/-- Which IP literals are valid hosts: the IPv6 addresses without a missed octet, and the addresses
of future versions that have the form of a name or begin with `v`, one digit and `.1`. -/
theorem validHost_ipLiteral_iff {h : Str} (hm : Rfc3986.ipLiteral.Matches h) :
    validHost h = true ↔
      (Rfc3986.ipv6Address.Matches h ∧ ∀ o ∈ octets h, isMissed o = false) ∨
        (Rfc3986.ipvFuture.Matches h ∧ (nameLike h = true ∨ versionOne h = true)) := by
  constructor
  · intro hv
    rcases Regex.matches_alt_iff.1 hm with hm | hm
    · exact Or.inl ⟨hm, (validHost_iff_of_ipv6Address hm).1 hv⟩
    · exact Or.inr ⟨hm, (validHost_iff_of_ipvFuture hm).1 hv⟩
  · rintro (⟨hm, hoct⟩ | ⟨hm, hform⟩)
    · exact (validHost_iff_of_ipv6Address hm).2 hoct
    · exact (validHost_iff_of_ipvFuture hm).2 hform

/-- An IPv6 address that ends in four octets. -/
theorem validHost_ipLiteral_iff_mapped :
    Rfc3986.ipLiteral.Matches (lit "::ffff:192.0.2.250") ∧
      validHost (lit "::ffff:192.0.2.250") = true := by
  have hm : Rfc3986.ipv6Address.Matches (lit "::ffff:192.0.2.250") :=
    (Regex.accepts_iff _ _).1 (by decide)
  have hlit : Rfc3986.ipLiteral.Matches (lit "::ffff:192.0.2.250") := .altLeft hm
  exact ⟨hlit, (validHost_ipLiteral_iff hlit).2 (Or.inl ⟨hm, by decide⟩)⟩

/-- The octet 204, and a text that does not begin with `1` and has a colon. -/
theorem not_validHost_ipLiteral :
    (Rfc3986.ipv6Address.Matches (lit "::1.2.3.204") ∧ validHost (lit "::1.2.3.204") = false) ∧
      (Rfc3986.ipvFuture.Matches (lit "v1.a:b") ∧ validHost (lit "v1.a:b") = false) := by
  have h6 : Rfc3986.ipv6Address.Matches (lit "::1.2.3.204") :=
    (Regex.accepts_iff _ _).1 (by decide)
  have hfut : Rfc3986.ipvFuture.Matches (lit "v1.a:b") := (Regex.accepts_iff _ _).1 (by decide)
  refine ⟨⟨h6, ?_⟩, hfut, ?_⟩
  · rw [← Bool.not_eq_true, validHost_iff_of_ipv6Address h6]
    decide
  · rw [← Bool.not_eq_true, validHost_iff_of_ipvFuture hfut]
    decide

end Url

end Mycelium
