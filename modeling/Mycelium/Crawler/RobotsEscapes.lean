import Mycelium.Common.UrlParts
import Mycelium.Crawler.RobotsText

/-!
# Escapes in rules and paths

A rule and a path are compared in the form that `canonical` gives them: the bytes with the flag for
paths are escaped, and the escapes of all others are decoded.  Two things follow that a reader of
the specification does not expect.  The slash has no flag, so that `%2F` is the same as a slash.
The escapes that are there already keep the letter case of their digits, so that two escapes of one
byte may differ.
-/

namespace Mycelium

open Lib

/-! ### The symbols of a string -/

namespace Tok

/-- The byte that a token stands for; `none` is the escaped slash. -/
def symbol : Tok → Option UInt8
  | raw c => some c
  | esc a b => if x2digitsToNum a b = Byte.slash then none else some (x2digitsToNum a b)

/-- What `Robots::canonical` makes of a token. -/
def canonical : Tok → Tok
  | raw c => (raw c).escape urlCharPath
  | esc a b =>
      if urlCharTest (x2digitsToNum a b) urlCharPath then esc a b else raw (x2digitsToNum a b)

/-- The byte that a token stands for. -/
def octet : Tok → UInt8
  | raw c => c
  | esc a b => x2digitsToNum a b

/-- The digits of a token as an escape; a plain byte is escaped with digits in upper case. -/
def digits : Tok → UInt8 × UInt8
  | raw c => (digitToXnum (c >>> 4), digitToXnum (c &&& 0xf))
  | esc a b => (a, b)

/-- A byte with the flag for paths is written with the same digits, also in their letter case. -/
def SameDigits (t u : Tok) : Prop := urlCharTest t.octet urlCharPath = true → t.digits = u.digits

/-- The same byte, with the same digits if it has the flag. -/
def Alike (t u : Tok) : Prop := t.octet = u.octet ∧ t.SameDigits u

/-- A slash is escaped in both or in none. -/
def SameSlash (t u : Tok) : Prop := t.symbol = none ↔ u.symbol = none

end Tok

instance : DecidableRel Tok.SameDigits := fun t u => by
  unfold Tok.SameDigits
  infer_instance

instance : DecidableRel Tok.Alike := fun t u => by
  unfold Tok.Alike
  infer_instance

instance : DecidableRel Tok.SameSlash := fun t u => by
  unfold Tok.SameSlash
  infer_instance

/-- A string with its escapes decoded, all but those of the slash. -/
def symbols (s : Str) : List (Option UInt8) := (tokens s).map Tok.symbol

/-- Byte by byte, the escapes of flagged bytes have the same digits. -/
def SameDigits (p q : Str) : Prop := List.Forall₂ Tok.SameDigits (tokens p) (tokens q)

/-- Byte by byte, two strings stand for the same and the escapes of flagged bytes have the same
digits. -/
def Alike (p q : Str) : Prop := List.Forall₂ Tok.Alike (tokens p) (tokens q)

/-- Byte by byte, the slashes are escaped in both or in none. -/
def SameSlashes (p q : Str) : Prop := List.Forall₂ Tok.SameSlash (tokens p) (tokens q)

instance : DecidableRel SameDigits := fun p q => by
  unfold SameDigits
  infer_instance

instance : DecidableRel Alike := fun p q => by
  unfold Alike
  infer_instance

instance : DecidableRel SameSlashes := fun p q => by
  unfold SameSlashes
  infer_instance

lemma Tok.canonical_eq (t : Tok) : t.canonical =
    if urlCharTest t.octet urlCharPath then esc t.digits.1 t.digits.2 else raw t.octet := by
  cases t with
  | raw c => rfl
  | esc a b => rfl

lemma Tok.octet_eq (t : Tok) : t.octet = x2digitsToNum t.digits.1 t.digits.2 := by
  cases t with
  | raw c => exact (x2digitsToNum_digits c).symm
  | esc a b => rfl

/-- The tokens that are compared as equal. -/
lemma Tok.canonical_eq_iff {t u : Tok} : t.canonical = u.canonical ↔ t.Alike u := by
  rw [canonical_eq, canonical_eq, Alike, SameDigits]
  constructor
  · intro h
    by_cases ht : urlCharTest t.octet urlCharPath = true
    · by_cases hu : urlCharTest u.octet urlCharPath = true
      · rw [if_pos ht, if_pos hu, esc.injEq] at h
        have hdigits : t.digits = u.digits := Prod.ext h.1 h.2
        exact ⟨by rw [octet_eq t, octet_eq u, hdigits], fun _ => hdigits⟩
      · simp [ht, hu] at h
    · by_cases hu : urlCharTest u.octet urlCharPath = true
      · simp [ht, hu] at h
      · rw [if_neg ht, if_neg hu, raw.injEq] at h
        exact ⟨h, fun hflag => absurd hflag ht⟩
  · rintro ⟨hoctet, hdigits⟩
    rw [← hoctet]
    split
    · next ht => rw [hdigits ht]
    · rfl

/-- The symbol of a token tells its byte. -/
lemma Tok.octet_eq_of_symbol_eq {t u : Tok} (h : t.symbol = u.symbol) : t.octet = u.octet := by
  have hoctet : ∀ t : Tok, t.octet = t.symbol.getD Byte.slash := by
    intro t
    cases t with
    | raw c => rfl
    | esc a b =>
        rw [octet, symbol]
        split
        · next hslash => exact hslash
        · rfl
  rw [hoctet t, hoctet u, h]

/-- The byte of a token tells its symbol, but for the slash. -/
lemma Tok.symbol_eq_iff {t u : Tok} (h : t.octet = u.octet) :
    t.symbol = u.symbol ↔ t.SameSlash u := by
  have hsymbol : ∀ t : Tok, t.symbol ≠ none → t.symbol = some t.octet := by
    intro t ht
    cases t with
    | raw c => rfl
    | esc a b =>
        rw [symbol, octet]
        split
        · next hslash => exact absurd (if_pos hslash) ht
        · rfl
  constructor
  · intro hsym
    rw [SameSlash, hsym]
  · intro hslash
    by_cases ht : t.symbol = none
    · rw [ht, hslash.1 ht]
    · rw [hsymbol t ht, hsymbol u (mt hslash.2 ht), h]

lemma Tok.closed_canonical {t : Tok} (ht : t = .raw Byte.percent ∨ t.Closed) :
    t.canonical.Closed := by
  have hne : ∀ c, urlCharTest c urlCharPath = false → c ≠ Byte.percent := by
    rintro c hc rfl
    exact absurd hc (by simp [Url.percent_path])
  cases t with
  | raw c =>
      by_cases hflag : urlCharTest c urlCharPath = true
      · rw [canonical, Tok.escape, if_pos hflag]
        exact ⟨isXDigit_digitToXnum_shift c, isXDigit_digitToXnum_and c⟩
      · rw [canonical, Tok.escape, if_neg hflag]
        exact hne c (by simpa using hflag)
  | esc a b =>
      by_cases hflag : urlCharTest (x2digitsToNum a b) urlCharPath = true
      · rw [canonical, if_pos hflag]
        exact ht.resolve_left (by simp)
      · rw [canonical, if_neg hflag]
        exact hne _ (by simpa using hflag)

namespace Robots

lemma canonical_eq_flatMap (p : Str) :
    canonical p = ((tokens p).map Tok.canonical).flatMap Tok.text := by
  rw [canonical, unescapeNot, unescapeIf_eq_flatMap, tokens_escape Url.percent_path,
    List.flatMap_map, List.flatMap_map]
  refine List.flatMap_congr fun t _ => ?_
  have haccept : ∀ c, (urlCharFlags c &&& urlCharPath == 0) = !urlCharTest c urlCharPath := by
    intro c
    rw [urlCharTest, bne, Bool.not_not]
  cases t with
  | raw c =>
      by_cases hflag : urlCharTest c urlCharPath = true <;>
        simp [Tok.canonical, Tok.escape, Tok.unescaped, Tok.text, hflag, haccept,
          x2digitsToNum_digits]
  | esc a b =>
      by_cases hflag : urlCharTest (x2digitsToNum a b) urlCharPath = true <;>
        simp [Tok.canonical, Tok.escape, Tok.unescaped, Tok.text, hflag, haccept]

lemma tokens_canonical (p : Str) : tokens (canonical p) = (tokens p).map Tok.canonical := by
  refine tokens_eq_of_text (canonical_eq_flatMap p) fun t ht => ?_
  obtain ⟨t', ht', rfl⟩ := List.mem_map.1 ht
  exact Tok.closed_canonical (tokens_closed_or p t' ht')

/-- The strings that are compared as equal. -/
lemma canonical_eq_iff {p q : Str} : canonical p = canonical q ↔ Alike p q := by
  have htokens : canonical p = canonical q ↔
      (tokens p).map Tok.canonical = (tokens q).map Tok.canonical := by
    constructor
    · intro h
      rw [← tokens_canonical, ← tokens_canonical, h]
    · intro h
      rw [canonical_eq_flatMap, canonical_eq_flatMap, h]
  rw [htokens, Alike, ← List.forall₂_eq_eq_eq, List.forall₂_map_left_iff,
    List.forall₂_map_right_iff]
  exact iff_of_eq (congrArg (fun R => List.Forall₂ R (tokens p) (tokens q))
    (funext₂ fun t u => propext Tok.canonical_eq_iff))

lemma symbols_eq_iff {p q : Str} :
    symbols p = symbols q ↔
      List.Forall₂ (fun t u : Tok => t.symbol = u.symbol) (tokens p) (tokens q) := by
  rw [symbols, symbols, ← List.forall₂_eq_eq_eq, List.forall₂_map_left_iff,
    List.forall₂_map_right_iff]

/-- Paths with the same symbols are compared as equal if their escapes have the same digits. -/
lemma alike_iff_sameDigits {p q : Str} (h : symbols p = symbols q) :
    Alike p q ↔ SameDigits p q := by
  have hsymbols := symbols_eq_iff.1 h
  constructor
  · exact List.Forall₂.imp fun t u htu => htu.2
  · intro hdigits
    exact hsymbols.mp (fun t u hsym hdig => ⟨Tok.octet_eq_of_symbol_eq hsym, hdig⟩) hdigits

/-- Strings that are compared as equal have the same symbols if their slashes are escaped alike. -/
lemma symbols_eq_iff_sameSlashes {p q : Str} (h : Alike p q) :
    symbols p = symbols q ↔ SameSlashes p q := by
  rw [symbols_eq_iff, SameSlashes]
  constructor
  · exact h.mp fun t u htu => (Tok.symbol_eq_iff htu.1).1
  · exact h.mp fun t u htu => (Tok.symbol_eq_iff htu.1).2

/-! ### What the lexer keeps of a rule -/

lemma length_tokens_append {v m : Str} (hm : ∀ d ∈ m.head?, isXDigit d = false) :
    (tokens (v ++ m)).length = (tokens v).length + (tokens m).length := by
  cases m with
  | nil => simp
  | cons d m => rw [tokens_append_of_not_xdigit (hm d rfl), List.length_append]

/-- The text of a rule gets shorter when it is not kept as a whole. -/
lemma kept_eq_of_length_le {r : Str} (h : (tokens r).length ≤ (tokens (kept r)).length) :
    kept r = r := by
  -- no hexadecimal digit has a flag
  have hdigit : ∀ d : UInt8, isSpace d = true → isXDigit d = false := by
    intro d hd
    by_contra hx
    have hflag := urlCharTest_of_isSpace hd
    rw [urlCharTest_of_isXDigit (by simpa using hx)] at hflag
    exact absurd hflag (by simp)
  obtain ⟨l, m, hl, hm, hcstr⟩ := exists_trim_eq (cstr r)
  have hr : r = l ++ (kept r ++ (m ++ r.dropWhile (· != 0))) := by
    rw [← List.append_assoc, ← List.append_assoc, kept, ← hcstr, cstr,
      List.takeWhile_append_dropWhile]
  have hclosed : Closed l := closed_of_not_mem fun hmem => absurd (hl _ hmem) (by decide)
  have hhead : ∀ d ∈ (m ++ r.dropWhile (· != 0)).head?, isXDigit d = false := by
    intro d hd
    cases m with
    | nil =>
        obtain rfl : d = 0 := by simpa using head?_dropWhile hd
        decide
    | cons c m =>
        obtain rfl : c = d := Option.some.inj hd
        exact hdigit c (hm c (by simp))
  have hlen : (tokens r).length =
      (tokens l).length + ((tokens (kept r)).length +
        (tokens (m ++ r.dropWhile (· != 0))).length) := by
    rw [← length_tokens_append hhead, ← List.length_append, ← tokens_append hclosed, ← hr]
  have hnil : ∀ s : Str, (tokens s).length = 0 → s = [] := by
    intro s hs
    rw [← text_tokens s, List.length_eq_zero_iff.1 hs]
    rfl
  rw [hnil l (by omega), hnil (m ++ _) (by omega)] at hr
  simpa using hr.symm

/-- A rule whose kept text is compared as equal with a path is at its beginning, symbol by symbol,
if it is kept as a whole and the slashes are escaped alike. -/
lemma symbols_prefix_iff {r p : Str} (h : Alike (kept r) p) :
    symbols r <+: symbols p ↔ kept r = r ∧ SameSlashes r p := by
  constructor
  · intro hpre
    have hlen : (tokens r).length ≤ (tokens (kept r)).length := by
      have hle := hpre.length_le
      rw [symbols, symbols, List.length_map, List.length_map] at hle
      rwa [h.length_eq]
    have hkept := kept_eq_of_length_le hlen
    rw [hkept] at h
    refine ⟨hkept, (symbols_eq_iff_sameSlashes h).1 (hpre.eq_of_length ?_)⟩
    rw [symbols, symbols, List.length_map, List.length_map, h.length_eq]
  · rintro ⟨hkept, hslash⟩
    rw [hkept] at h
    rw [(symbols_eq_iff_sameSlashes h).2 hslash]

/-! ### A file with one rule -/

lemma value_star : Value (lit "*") := by
  have hstar : lit "*" = [0x2A] := by decide
  rw [hstar]
  exact ⟨by simp [isValue, Byte.hash], by simp [isSpace], by simp [isSpace]⟩

/-- The records of a file with a rule for all user agents. -/
lemma yylex_disallow {r t₁ t₂ : Str} (h₁ : (Line.userAgent (lit "*")).Prints t₁)
    (h₂ : (Line.rule ⟨.disallow, r⟩).Prints t₂) (hr : ∀ c ∈ r, isValue c = true) :
    (yylex {} (t₁ ++ t₂)).2.uasRulesAll = [⟨[lit "*"], [⟨.disallow, canonical (kept r)⟩]⟩] := by
  obtain ⟨kw₁, sp₁, e₁, hkw₁, hsp₁, he₁, rfl⟩ := h₁
  obtain ⟨kw₂, sp₂, e₂, hkw₂, hsp₂, he₂, rfl⟩ := h₂
  have hword : Spells kw₂ RuleType.disallow.word := hkw₂
  have hua := run_userAgent (s := {}) rfl hkw₁ hsp₁ value_star.isValue (by decide) he₁
    (kw₂ ++ (sp₂ ++ r ++ e₂))
  rw [value_star.kept_eq] at hua
  have hrule := run_rule (s := Lexer.addUa {} (lit "*")) rfl hword hsp₂ hr he₂ []
  rw [List.append_nil] at hrule
  rw [yylex, Line.value, Line.value, hua, hrule]
  rfl

lemma pathAllowed_disallow (x userAgent p : Str) :
    pathAllowed [⟨[lit "*"], [⟨.disallow, x⟩]⟩] userAgent p = true ↔ x ≠ canonical p := by
  have hfirst : firstRecord userAgent [⟨[lit "*"], [⟨.disallow, x⟩]⟩]
      = some ⟨[lit "*"], [⟨.disallow, x⟩]⟩ := by
    simp [firstRecord, appliesTo]
  rw [← Bool.not_eq_false, pathAllowed_eq_false_iff, hfirst]
  by_cases h : x = canonical p <;> simp [equalRule, h]

/-- The lines `User-agent: *` and `Disallow: r`. -/
lemma prints_lines (r : Str) :
    (Line.userAgent (lit "*")).Prints (lit "User-agent: *\n") ∧
      (Line.rule ⟨.disallow, r⟩).Prints (lit "Disallow: " ++ r ++ [0x0A]) := by
  have hblank : Blanks [0x20] := by simp [Blanks, isBlank]
  exact ⟨⟨lit "User-agent:", [0x20], [0x0A], rfl, hblank, Or.inl rfl, by decide⟩,
    lit "Disallow:", [0x20], [0x0A], rfl, hblank, Or.inl rfl, by rw [← List.append_assoc]; rfl⟩

/-- The records of the file with these lines. -/
def stored (r : Str) : List UasRules :=
  (yylex {} (lit "User-agent: *\n" ++ (lit "Disallow: " ++ r ++ [0x0A]))).2.uasRulesAll

lemma stored_eq {r : Str} (hr : r.all isValue = true) :
    stored r = [⟨[lit "*"], [⟨.disallow, canonical (kept r)⟩]⟩] :=
  yylex_disallow (prints_lines r).1 (prints_lines r).2 (List.all_eq_true.1 hr)

end Robots

end Mycelium
