import Mycelium.Crawler.Robots
import Mycelium.Lib.Cut
import Mycelium.Lib.Scanner

/-!
# The lexer of robots.txt

The rules of `robots.ll` and their actions, which collect the records of a `robots.txt`.  A record
is closed by the first user agent after a rule and by the end of the file.

For each kind of line a lemma says that the scanner takes the line and what its action does,
whatever follows; a comment takes the empty lines after it too.
-/

namespace Mycelium

open Lib

namespace Robots

/-! ### Patterns -/

/-- The bytes of `SPACE`. -/
def isBlank (c : UInt8) : Bool := c == 0x09 || c == 0x20

/-- A text of blanks. -/
def Blanks (sp : Str) : Prop := ∀ c ∈ sp, isBlank c = true

lemma blanks_nil : Blanks [] := by simp [Blanks]

def newline : Regex UInt8 := .seq (.opt (.chr 0x0D)) (.chr 0x0A)

/-- The dot of a pattern. -/
def dot : Regex UInt8 := .cls (· != 0x0A)

def commentl : Regex UInt8 := .cat [.star (.cls isBlank), .chr Byte.hash, .star dot]

/-- A word in any letter case. -/
def keyword (s : Str) : Regex UInt8 := .cat (s.map fun d => .cls fun c => toLower c == toLower d)

/-- The bytes of `[^#\n\r]`. -/
def isValue (c : UInt8) : Bool := c != Byte.hash && c != 0x0A && c != 0x0D

def commentRe : Regex UInt8 := .seq commentl (.star newline)

def userAgentRe : Regex UInt8 :=
  .cat [keyword (lit "User-agent:"), .star (.cls isBlank), .plus (.cls isValue), .opt commentl,
    newline]

/-- The pattern of the lines with a rule. -/
def ruleRe (word : Str) : Regex UInt8 :=
  .cat [keyword word, .star (.cls isBlank), .star (.cls isValue), .opt commentl, .opt newline]

def blankRe : Regex UInt8 := .seq (.star (.cls isBlank)) newline

def unmatchedRe : Regex UInt8 := .plus dot

/-! ### Rules and actions -/

/-- The rules of `robots.ll`. -/
inductive Label where
  | comment
  | userAgent
  | rule (type : RuleType)
  | blank
  | unmatched
deriving DecidableEq

/-- The word at the start of a line with a rule. -/
def RuleType.word : RuleType → Str
  | disallow => lit "Disallow:"
  | allow => lit "Allow:"
  | crawlDelay => lit "Crawl-delay:"

/-- A rule that is active everywhere. -/
def anywhere (re : Regex UInt8) (label : Label) : ScanRule UInt8 Bool Label :=
  ⟨fun _ => true, re, label⟩

/-- A rule with `^`, active at the beginning of a line. -/
def atStart (re : Regex UInt8) (label : Label) : ScanRule UInt8 Bool Label := ⟨id, re, label⟩

/-- The rule for the lines with a rule of a type. -/
def ruleRule (type : RuleType) : ScanRule UInt8 Bool Label :=
  atStart (ruleRe type.word) (.rule type)

def scanRules : List (ScanRule UInt8 Bool Label) :=
  [anywhere commentRe .comment, atStart userAgentRe .userAgent, ruleRule .allow, ruleRule .disallow,
    ruleRule .crawlDelay, anywhere blankRe .blank, anywhere unmatchedRe .unmatched]

/-- `state_t`. -/
inductive ParseState where
  | start
  | readingUas
  | rules
  | eof
deriving DecidableEq, Repr

/-- `class Robots`, with the flag of the scanner for the beginning of a line. -/
structure Lexer where
  valid : Bool := false
  errors : Str := []
  state : ParseState := .start
  current : UasRules := {}
  uasRulesAll : List UasRules := []
  atBol : Bool := true
deriving DecidableEq

namespace Lexer

def start (s : Lexer) : Lexer := { s with state := .start }

def rules (s : Lexer) : Lexer := { s with state := .rules }

/-- The record that is read is complete. -/
def close (s : Lexer) : Lexer :=
  { s with uasRulesAll := s.uasRulesAll ++ [s.current], current := {}, valid := true }

def readingUas (s : Lexer) : Lexer :=
  let s := if s.state = .rules then s.close else s
  { s with state := .readingUas }

def eof (s : Lexer) : Lexer :=
  let s := if s.current.ua.isEmpty then s else s.close
  { s with state := .eof }

/-- The action for a user agent. -/
def addUa (s : Lexer) (name : Str) : Lexer :=
  let s := s.readingUas
  { s with current := { s.current with ua := s.current.ua ++ [name] } }

/-- The action for a rule. -/
def addRule (s : Lexer) (r : Rule) : Lexer :=
  let s := s.rules
  { s with current := { s.current with rules := s.current.rules ++ [r] } }

end Lexer

/-- The `std::string` of a C string. -/
def cstr (yytext : Str) : Str := yytext.takeWhile (· != 0)

/-- What follows the first `n` characters of a line, without comment and white space. -/
def lineValue (n : ℕ) (yytext : Str) : Str :=
  trim (((cstr yytext).drop n).takeWhile (· != Byte.hash))

/-- What is left of the text of a value: up to a null byte, and without the white space around
it. -/
def kept (x : Str) : Str := trim (cstr x)

/-- The text of a rule as it is kept: a path in the form in which paths are compared. -/
def RuleType.keep (type : RuleType) (rule : Str) : Str :=
  match type with
  | disallow | allow => canonical rule
  | crawlDelay => rule

/-- Whether there is a match of `sgml_tag`, `<[^>]+>`. -/
def sgmlTag : Str → Bool
  | [] => false
  | c :: s =>
      (c == 0x3C && !(s.takeWhile (· != 0x3E)).isEmpty && !(s.dropWhile (· != 0x3E)).isEmpty)
        || sgmlTag s

/-- The actions.  Only a line that looks like HTML at the start of the file ends the scan. -/
def act (s : Lexer) (label : Label) (yytext : Str) : Except Lexer Lexer :=
  let s := { s with atBol := yytext.getLast? == some 0x0A }
  match label with
  | .comment | .blank => .ok s
  | .userAgent => .ok (s.addUa (lineValue 11 yytext))
  | .rule type => .ok (s.addRule ⟨type, type.keep (lineValue type.word.length yytext)⟩)
  | .unmatched =>
      let s := { s with errors := s.errors ++ lit "unmatched: |" ++ cstr yytext ++ lit "|\n" }
      if s.state = .start ∧ sgmlTag (cstr yytext) then .error s else .ok s

def scanner : Scanner UInt8 Bool Label Lexer Lexer where
  rules := scanRules
  cond := Lexer.atBol
  act := act
  echo s c := { s with atBol := c == 0x0A }

/-- `Robots::yylex`. -/
def yylex (s : Lexer) (text : Str) : ℤ × Lexer :=
  match scanner.run s text with
  | .error s => (-1, s)
  | .ok s => (0, s.eof.start)

/-! ### The words of the patterns -/

/-- The end of a line. -/
def Eol (e : Str) : Prop := e = [0x0A] ∨ e = [0x0D, 0x0A]

lemma matches_newline_iff {e : Str} : newline.Matches e ↔ Eol e := by
  simp only [newline, Regex.chr, Regex.matches_seq_iff, Regex.matches_opt_iff,
    Regex.matches_cls_iff, beq_iff_eq, Eol]
  constructor
  · rintro ⟨u, v, ⟨c, rfl, rfl⟩ | rfl, ⟨d, rfl, rfl⟩, rfl⟩
    · exact Or.inr rfl
    · exact Or.inl rfl
  · rintro (rfl | rfl)
    · exact ⟨[], [0x0A], Or.inr rfl, ⟨0x0A, rfl, rfl⟩, rfl⟩
    · exact ⟨[0x0D], [0x0A], Or.inl ⟨0x0D, rfl, rfl⟩, ⟨0x0A, rfl, rfl⟩, rfl⟩

lemma matches_keyword_iff {s w : Str} :
    (keyword s).Matches w ↔ w.map toLower = s.map toLower :=
  Regex.matches_cat_image_iff

/-- The words with at most one line end, at their end. -/
def OneLine (u : Str) : Prop := ∃ q, 0x0A ∉ q ∧ (u = q ∨ u = q ++ [0x0A])

lemma oneLine_of_notMem {u : Str} (h : 0x0A ∉ u) : OneLine u := ⟨u, h, Or.inl rfl⟩

lemma Eol.exists_eq {e : Str} (h : Eol e) : ∃ z, 0x0A ∉ z ∧ e = z ++ [0x0A] := by
  rcases h with rfl | rfl
  · exact ⟨[], by simp, rfl⟩
  · exact ⟨[0x0D], by decide, rfl⟩

lemma Eol.oneLine {e : Str} (h : Eol e) : OneLine e := by
  obtain ⟨z, hz, rfl⟩ := h.exists_eq
  exact ⟨z, hz, Or.inr rfl⟩

lemma oneLine_seq {r r' : Regex UInt8} (hr : ∀ u, r.Matches u → 0x0A ∉ u)
    (hr' : ∀ u, r'.Matches u → OneLine u) (u : Str) (h : (r.seq r').Matches u) : OneLine u := by
  obtain ⟨x, y, hx, hy, rfl⟩ := Regex.matches_seq_iff.1 h
  obtain ⟨q, hq, hyq⟩ := hr' y hy
  refine ⟨x ++ q, by simp [hr x hx, hq], ?_⟩
  rcases hyq with hyq | hyq
  · exact Or.inl (by rw [hyq])
  · exact Or.inr (by rw [hyq, List.append_assoc])

lemma notMem_of_star {p : UInt8 → Bool} (hp : p 0x0A = false) (u : Str)
    (h : (Regex.star (.cls p)).Matches u) : 0x0A ∉ u :=
  fun hmem => absurd (Regex.matches_star_cls_iff.1 h _ hmem) (by simp [hp])

lemma notMem_of_plus {p : UInt8 → Bool} (hp : p 0x0A = false) (u : Str)
    (h : (Regex.plus (.cls p)).Matches u) : 0x0A ∉ u :=
  fun hmem => absurd ((Regex.matches_plus_cls_iff.1 h).2 _ hmem) (by simp [hp])

lemma notMem_of_keyword {word : Str} (hword : 0x0A ∉ word.map toLower) (u : Str)
    (h : (keyword word).Matches u) : 0x0A ∉ u := by
  intro hmem
  rw [← matches_keyword_iff.1 h] at hword
  exact hword (List.mem_map.2 ⟨_, hmem, rfl⟩)

/-- The words of a comment without its line end. -/
lemma matches_commentl_iff {u : Str} : commentl.Matches u ↔
    ∃ sp x, Blanks sp ∧ 0x0A ∉ x ∧ u = sp ++ Byte.hash :: x := by
  simp only [commentl, Regex.cat, Regex.chr, dot, Regex.matches_seq_iff,
    Regex.matches_star_cls_iff, Regex.matches_cls_iff, beq_iff_eq]
  constructor
  · rintro ⟨sp, _, hsp, ⟨_, x, ⟨c, rfl, rfl⟩, hx, rfl⟩, rfl⟩
    exact ⟨sp, x, hsp, fun hmem => by simpa using hx _ hmem, rfl⟩
  · rintro ⟨sp, x, hsp, hx, rfl⟩
    refine ⟨sp, _, hsp, ⟨_, x, ⟨_, rfl, rfl⟩, fun c hc => ?_, rfl⟩, rfl⟩
    rw [bne_iff_ne]
    rintro rfl
    exact hx hc

lemma notMem_of_commentl {p : Str} (h : commentl.Matches p) : 0x0A ∉ p := by
  obtain ⟨sp, x, hsp, hx, rfl⟩ := matches_commentl_iff.1 h
  have hsp' : 0x0A ∉ sp := fun hmem => absurd (hsp _ hmem) (by decide)
  simp [hsp', hx, Byte.hash]

lemma oneLine_opt_commentl {r : Regex UInt8} (hr : ∀ u, r.Matches u → OneLine u) (u : Str)
    (h : ((Regex.opt commentl).seq r).Matches u) : OneLine u := by
  refine oneLine_seq (fun x hx => ?_) hr u h
  rcases Regex.matches_opt_iff.1 hx with hx | rfl
  · exact notMem_of_commentl hx
  · simp

lemma oneLine_userAgentRe (u : Str) (h : userAgentRe.Matches u) : OneLine u := by
  refine oneLine_seq (notMem_of_keyword (by decide)) ?_ u h
  refine oneLine_seq (notMem_of_star (by decide)) ?_
  exact oneLine_seq (notMem_of_plus (by decide))
    (oneLine_opt_commentl fun e he => (matches_newline_iff.1 he).oneLine)

lemma oneLine_ruleRe (type : RuleType) (u : Str) (h : (ruleRe type.word).Matches u) :
    OneLine u := by
  refine oneLine_seq (notMem_of_keyword (by cases type <;> decide)) ?_ u h
  refine oneLine_seq (notMem_of_star (by decide)) ?_
  refine oneLine_seq (notMem_of_star (by decide)) (oneLine_opt_commentl fun e he => ?_)
  rcases Regex.matches_opt_iff.1 he with he | rfl
  · exact (matches_newline_iff.1 he).oneLine
  · exact oneLine_of_notMem (by simp)

lemma oneLine_blankRe (u : Str) (h : blankRe.Matches u) : OneLine u :=
  oneLine_seq (notMem_of_star (by decide)) (fun e he => (matches_newline_iff.1 he).oneLine) u h

lemma oneLine_unmatchedRe (u : Str) (h : unmatchedRe.Matches u) : OneLine u :=
  oneLine_of_notMem (notMem_of_plus (by decide) u h)

/-- Only a comment can take more than one line. -/
lemma oneLine_of_mem_tail {r : ScanRule UInt8 Bool Label} (hr : r ∈ scanRules.tail) (u : Str)
    (h : r.re.Matches u) : OneLine u := by
  simp only [scanRules, List.tail_cons, List.mem_cons, List.not_mem_nil, or_false] at hr
  rcases hr with rfl | rfl | rfl | rfl | rfl | rfl
  · exact oneLine_userAgentRe u h
  · exact oneLine_ruleRe _ u h
  · exact oneLine_ruleRe _ u h
  · exact oneLine_ruleRe _ u h
  · exact oneLine_blankRe u h
  · exact oneLine_unmatchedRe u h

/-! ### Which rule takes a line -/

/-- A piece of one line is no longer than the line. -/
lemma OneLine.length_le {u p v : Str} (hu : OneLine u) (h : u <+: p ++ 0x0A :: v) :
    u.length ≤ p.length + 1 := by
  obtain ⟨q, hq, hu⟩ := hu
  have hpre : q <+: p ++ 0x0A :: v := by
    rcases hu with rfl | rfl
    · exact h
    · exact (List.prefix_append q _).trans h
  have hle : q.length ≤ p.length := length_le_of_isPrefix hpre hq
  rcases hu with rfl | rfl
  · omega
  · simpa using hle

/-- A text is no comment if its first byte after the blanks is another one than the hash. -/
lemma not_matches_commentRe {sp u : Str} {c : UInt8} (hsp : Blanks sp)
    (hc : isBlank c = false) (hne : c ≠ Byte.hash) (rest : Str) (hu : u <+: sp ++ c :: rest) :
    ¬commentRe.Matches u := by
  intro h
  obtain ⟨_, y, hx, -, rfl⟩ := Regex.matches_seq_iff.1 h
  obtain ⟨sp', x, hsp', -, rfl⟩ := matches_commentl_iff.1 hx
  obtain ⟨w, hw⟩ := hu
  have hdrop := congrArg (List.dropWhile isBlank) hw
  rw [List.append_assoc, List.append_assoc, List.cons_append,
    dropWhile_append_of_stop hsp' (by simp [isBlank, Byte.hash]),
    dropWhile_append_of_stop hsp (by simpa using hc)] at hdrop
  exact hne (List.cons.inj hdrop).1.symm

/-- Where there is no comment, no rule takes more than a line. -/
lemma atMost_line {p v : Str} (b : Bool)
    (h : ∀ u, u <+: p ++ 0x0A :: v → ¬commentRe.Matches u) :
    AtMost b (p ++ [0x0A] ++ v) (p ++ [0x0A]).length scanRules := by
  intro r hr _ u hu hmatch
  rw [List.append_assoc, List.singleton_append] at hu
  rw [List.length_append, List.length_singleton]
  rcases List.mem_cons.1 hr with rfl | hr
  · exact absurd hmatch (h u hu)
  · exact (oneLine_of_mem_tail hr u hmatch).length_le hu

lemma head_of_keyword {d : UInt8} {s u : Str} {r : Regex UInt8}
    (h : ((keyword (d :: s)).seq r).Matches u) : ∃ c t, u = c :: t ∧ toLower c = toLower d := by
  obtain ⟨x, y, hx, -, rfl⟩ := Regex.matches_seq_iff.1 h
  have hmap := matches_keyword_iff.1 hx
  cases x with
  | nil => exact absurd hmap (by simp)
  | cons c x => exact ⟨c, x ++ y, rfl, (List.cons.inj hmap).1⟩

lemma accepts_userAgentRe_cons {c : UInt8} (hc : toLower c ≠ 0x75) (t : Str) :
    userAgentRe.accepts (c :: t) = false := by
  rw [Regex.accepts_eq_false_iff]
  intro h
  obtain ⟨c', t', heq, hc'⟩ := head_of_keyword h
  obtain ⟨rfl, -⟩ := List.cons.inj heq
  exact hc hc'

lemma accepts_ruleRe_cons {type : RuleType} {c : UInt8}
    (hc : toLower c ∉ (type.word.map toLower).head?) (t : Str) :
    (ruleRe type.word).accepts (c :: t) = false := by
  rw [Regex.accepts_eq_false_iff]
  intro h
  cases type <;>
  · obtain ⟨c', t', heq, hc'⟩ := head_of_keyword h
    obtain ⟨rfl, -⟩ := List.cons.inj heq
    exact hc (congrArg some hc'.symm)

/-! ### Blank lines and comments -/

/-- The first byte of a blank line. -/
lemma exists_cons_of_blank {sp e : Str} (hsp : Blanks sp) (he : Eol e) :
    ∃ c t, sp ++ e = c :: t ∧ (c = 0x09 ∨ c = 0x20 ∨ c = 0x0A ∨ c = 0x0D) := by
  cases sp with
  | nil =>
      rcases he with rfl | rfl
      · exact ⟨_, _, rfl, by simp⟩
      · exact ⟨_, _, rfl, by simp⟩
  | cons c sp =>
      have hc := hsp c (by simp)
      simp only [isBlank, Bool.or_eq_true, beq_iff_eq] at hc
      exact ⟨c, sp ++ e, rfl, by tauto⟩

lemma Eol.exists_cons {e : Str} (he : Eol e) :
    ∃ c t, e = c :: t ∧ isBlank c = false ∧ c ≠ Byte.hash := by
  rcases he with rfl | rfl
  · exact ⟨_, _, rfl, by decide, by decide⟩
  · exact ⟨_, _, rfl, by decide, by decide⟩

lemma find?_blank {sp e : Str} (hsp : Blanks sp) (he : Eol e) (b : Bool) :
    scanRules.find? (ScanRule.takes b (sp ++ e)) = some (anywhere blankRe .blank) := by
  have hcomment : commentRe.accepts (sp ++ e) = false := by
    obtain ⟨c, t, rfl, hc, hne⟩ := he.exists_cons
    exact Regex.accepts_eq_false_iff.2 (not_matches_commentRe hsp hc hne t List.prefix_rfl)
  have hblank : blankRe.accepts (sp ++ e) = true :=
    (Regex.accepts_iff _ _).2
      ((Regex.matches_star_cls_iff.2 hsp).seq (matches_newline_iff.2 he))
  obtain ⟨c, t, hct, hc⟩ := exists_cons_of_blank hsp he
  have huser : userAgentRe.accepts (sp ++ e) = false := by
    rw [hct]
    exact accepts_userAgentRe_cons (by rcases hc with rfl | rfl | rfl | rfl <;> decide) t
  have hrule : ∀ type : RuleType, (ruleRe type.word).accepts (sp ++ e) = false := by
    intro type
    rw [hct]
    refine accepts_ruleRe_cons ?_ t
    rcases hc with rfl | rfl | rfl | rfl <;> cases type <;> decide
  simp [scanRules, List.find?, ScanRule.takes, anywhere, atStart, ruleRule, hcomment, hblank,
    huser, hrule]

/-- A blank line is skipped. -/
lemma run_blank (s : Lexer) {sp e : Str} (hsp : Blanks sp) (he : Eol e) (v : Str) :
    scanner.run s (sp ++ e ++ v) = scanner.run { s with atBol := true } v := by
  obtain ⟨z, -, rfl⟩ := he.exists_eq
  have hmost : AtMost s.atBol (sp ++ (z ++ [0x0A]) ++ v) (sp ++ (z ++ [0x0A])).length
      scanRules := by
    rw [← List.append_assoc sp z]
    refine atMost_line _ fun u hu => ?_
    obtain ⟨c, t, hct, hc, hne⟩ := he.exists_cons
    have htext : sp ++ z ++ 0x0A :: v = sp ++ c :: (t ++ v) := by
      rw [← List.cons_append, ← hct]
      simp
    rw [htext] at hu
    exact not_matches_commentRe hsp hc hne (t ++ v) hu
  rw [Scanner.run_append (by simp) hmost (find?_blank hsp he _)]
  simp [scanner, act, anywhere, ok_bind]

/-- Line ends are skipped. -/
lemma run_newlines {s : Lexer} (hs : s.atBol = true) {y : Str}
    (hy : (Regex.star newline).Matches y) (v : Str) :
    scanner.run s (y ++ v) = scanner.run s v := by
  have hbol : { s with atBol := true } = s := by rw [← hs]
  refine Regex.star_induction (P := fun y => scanner.run s (y ++ v) = scanner.run s v) rfl ?_ hy
  intro e y he _ ih
  have hblank := run_blank s blanks_nil (matches_newline_iff.1 he) (y ++ v)
  rw [List.nil_append, hbol, ih] at hblank
  rw [List.append_assoc, hblank]

lemma getLast?_newlines {y : Str} (hy : (Regex.star newline).Matches y) :
    (0x0A :: y).getLast? = some 0x0A := by
  refine Regex.star_induction (P := fun y => (0x0A :: y).getLast? = some 0x0A) rfl ?_ hy
  intro e y he _ ih
  obtain ⟨z, -, rfl⟩ := (matches_newline_iff.1 he).exists_eq
  rw [List.append_assoc, ← List.cons_append, List.getLast?_append, List.singleton_append, ih]
  rfl

/-- A comment is at most its line and the line ends after it. -/
lemma length_le_of_commentRe {p y v u : Str} (hp : 0x0A ∉ p)
    (hmax : ∀ y', y' <+: v → (Regex.star newline).Matches y' → y'.length ≤ y.length)
    (hu : u <+: p ++ 0x0A :: v) (h : commentRe.Matches u) :
    u.length ≤ p.length + (y.length + 1) := by
  obtain ⟨q, y', hq, hy', rfl⟩ := Regex.matches_seq_iff.1 h
  have hnl := notMem_of_commentl hq
  cases y' with
  | nil =>
      rw [List.append_nil] at hu ⊢
      have := length_le_of_isPrefix hu hnl
      omega
  | cons c y' =>
      -- the first line end of the comment is that of its line
      obtain ⟨e, y'', he, hy'', rfl⟩ := Regex.matches_star_cons_iff.1 hy'
      obtain ⟨z, hz, heq⟩ := (matches_newline_iff.1 he).exists_eq
      have hcy : c :: (e ++ y'') = z ++ 0x0A :: y'' := by
        rw [← List.cons_append, heq]
        simp
      obtain ⟨w, hw⟩ := hu
      have hsplit : (q ++ z) ++ 0x0A :: (y'' ++ w) = p ++ 0x0A :: v := by
        rw [hcy] at hw
        rw [← hw]
        simp
      have hqz : 0x0A ∉ q ++ z := by simp [hnl, hz]
      obtain ⟨rfl, rfl⟩ := append_cons_inj hqz hp hsplit
      have hle := hmax y'' (List.prefix_append y'' w) hy''
      rw [hcy, List.length_append, List.length_append, List.length_append, List.length_cons]
      omega

lemma run_commentl (s : Lexer) {p : Str} (hp : commentl.Matches p) (v : Str) :
    scanner.run s (p ++ 0x0A :: v) = scanner.run { s with atBol := true } v := by
  have hnl := notMem_of_commentl hp
  obtain ⟨y, v, rfl, hy, hmax⟩ :=
    Regex.exists_longest (r := Regex.star newline) Regex.Matches.starNil v
  have hmatch : commentRe.Matches (p ++ 0x0A :: y) :=
    hp.seq (Regex.Matches.starCons (matches_newline_iff.2 (Or.inl rfl)) hy)
  have hmost : AtMost s.atBol (p ++ 0x0A :: y ++ v) (p ++ 0x0A :: y).length scanRules := by
    intro r hr _ u hu hu'
    rw [List.append_assoc, List.cons_append] at hu
    rw [List.length_append, List.length_cons]
    rcases List.mem_cons.1 hr with rfl | hr
    · exact length_le_of_commentRe hnl hmax hu hu'
    · have := (oneLine_of_mem_tail hr u hu').length_le hu
      omega
  have hfind : scanRules.find? (ScanRule.takes s.atBol (p ++ 0x0A :: y)) =
      some (anywhere commentRe .comment) :=
    List.find?_cons_of_pos ((Regex.accepts_iff _ _).2 hmatch)
  have htext : p ++ 0x0A :: (y ++ v) = p ++ 0x0A :: y ++ v := by simp
  rw [htext, Scanner.run_append (by simp) hmost hfind, run_newlines rfl hy]
  simp [scanner, act, anywhere, ok_bind, List.getLast?_append, getLast?_newlines hy]

/-- A comment is skipped, whatever follows its line. -/
lemma run_comment (s : Lexer) {sp x e : Str} (hsp : Blanks sp) (hx : 0x0A ∉ x) (he : Eol e)
    (v : Str) :
    scanner.run s (sp ++ Byte.hash :: x ++ e ++ v) = scanner.run { s with atBol := true } v := by
  obtain ⟨z, hz, rfl⟩ := he.exists_eq
  have hp : commentl.Matches (sp ++ Byte.hash :: (x ++ z)) :=
    matches_commentl_iff.2 ⟨sp, x ++ z, hsp, by simp [hx, hz], rfl⟩
  rw [← run_commentl s hp v]
  simp

/-! ### Lines with a value -/

/-- The text that a line can carry: no comment, line end or null byte in it, and no white space at
its ends. -/
structure Value (x : Str) : Prop where
  bytes : ∀ c ∈ x, isValue c = true ∧ c ≠ 0
  first : ∀ c ∈ x.head?, isSpace c = false
  last : ∀ c ∈ x.getLast?, isSpace c = false

/-- A word in some letter case. -/
def Spells (kw word : Str) : Prop := kw.map toLower = word.map toLower

/-- White space around a text does not matter to `trim`. -/
lemma trim_append_space {sp x e : Str} (hsp : ∀ c ∈ sp, isSpace c = true)
    (he : ∀ c ∈ e, isSpace c = true) : trim (sp ++ x ++ e) = trim x := by
  rw [List.append_assoc, trim, trim, List.dropWhile_append_of_pos hsp, List.dropWhile_append]
  split
  · next hx =>
      rw [List.dropWhile_eq_nil_iff.2 he, List.isEmpty_iff.1 hx]
  · rw [List.rdropWhile, List.reverse_append, List.dropWhile_append_of_pos (by simpa using he),
      List.rdropWhile]

lemma exists_trim_eq (x : Str) : ∃ l m, (∀ c ∈ l, isSpace c = true) ∧
    (∀ c ∈ m, isSpace c = true) ∧ x = l ++ trim x ++ m := by
  refine ⟨x.takeWhile isSpace, ((x.dropWhile isSpace).reverse.takeWhile isSpace).reverse,
    fun c hc => List.mem_takeWhile_imp hc,
    fun c hc => List.mem_takeWhile_imp (List.mem_reverse.1 hc), ?_⟩
  rw [trim, List.rdropWhile, List.append_assoc, ← List.reverse_append,
    List.takeWhile_append_dropWhile, List.reverse_reverse, List.takeWhile_append_dropWhile]

lemma Value.isValue {x : Str} (hx : Value x) : ∀ c ∈ x, isValue c = true :=
  fun c hc => (hx.bytes c hc).1

/-- A value is kept as it is. -/
lemma Value.kept_eq {x : Str} (hx : Value x) : kept x = x := by
  have hnul : 0 ∉ x := fun hmem => (hx.bytes 0 hmem).2 rfl
  have hlast : ∀ c ∈ x.reverse.head?, isSpace c = false := by
    rw [List.head?_reverse]
    exact hx.last
  have hdrop : x.dropWhile isSpace = x := dropWhile_append_of_stop (x := []) (by simp) hx.first
  have hrev : x.reverse.dropWhile isSpace = x.reverse :=
    dropWhile_append_of_stop (x := []) (by simp) hlast
  rw [kept, cstr, List.takeWhile_eq_self_iff.2 (bne_of_notMem hnul), trim, hdrop, List.rdropWhile,
    hrev, List.reverse_reverse]

lemma isSpace_of_isBlank {c : UInt8} (h : isBlank c = true) : isSpace c = true := by
  simp only [isBlank, Bool.or_eq_true, beq_iff_eq] at h
  rcases h with rfl | rfl <;> decide

lemma isSpace_of_mem_eol {e : Str} (he : Eol e) : ∀ c ∈ e, isSpace c = true := by
  rcases he with rfl | rfl <;> simp [isSpace]

/-- A null byte in a value keeps the rest of the line away. -/
lemma exists_cstr_append {x e : Str} (he : ∀ c ∈ e, isSpace c = true) :
    ∃ e', (∀ c ∈ e', isSpace c = true) ∧ cstr (x ++ e) = cstr x ++ e' := by
  by_cases h0 : 0 ∈ x
  · obtain ⟨y, z, rfl⟩ := List.append_of_mem h0
    refine ⟨[], by simp, ?_⟩
    rw [cstr, cstr, List.append_assoc, List.cons_append, takeWhile_append_cons_of_neg (by simp),
      takeWhile_append_cons_of_neg (by simp), List.append_nil]
  · have he0 : 0 ∉ e := fun hmem => absurd (he 0 hmem) (by decide)
    refine ⟨e, he, ?_⟩
    rw [cstr, cstr, List.takeWhile_append_of_pos (bne_of_notMem h0),
      List.takeWhile_eq_self_iff.2 (bne_of_notMem h0),
      List.takeWhile_eq_self_iff.2 (bne_of_notMem he0)]

/-- What the actions take from a line: the value as far as it is kept. -/
lemma lineValue_eq {word kw sp x e : Str} (hword : 0 ∉ word.map toLower) (hkw : Spells kw word)
    (hsp : Blanks sp) (hx : ∀ c ∈ x, isValue c = true) (he : Eol e) :
    lineValue word.length (kw ++ (sp ++ x ++ e)) = kept x := by
  have hspace : ∀ c ∈ sp, isSpace c = true := fun c hc => isSpace_of_isBlank (hsp c hc)
  have hkw0 : 0 ∉ kw := by
    rw [← hkw] at hword
    exact fun hmem => hword (List.mem_map.2 ⟨0, hmem, rfl⟩)
  have hsp0 : 0 ∉ sp := fun hmem => absurd (hspace 0 hmem) (by decide)
  have hlen : kw.length = word.length := by simpa using congrArg List.length hkw
  obtain ⟨e', he', hcut⟩ := exists_cstr_append (x := x) (isSpace_of_mem_eol he)
  have hcstr : cstr (kw ++ (sp ++ x ++ e)) = kw ++ (sp ++ cstr x ++ e') := by
    rw [cstr, List.takeWhile_append_of_pos (bne_of_notMem hkw0), List.append_assoc,
      List.takeWhile_append_of_pos (bne_of_notMem hsp0), List.append_assoc, ← hcut]
    rfl
  have hhash : Byte.hash ∉ sp ++ cstr x ++ e' := by
    simp only [List.mem_append, not_or]
    refine ⟨⟨fun hmem => ?_, fun hmem => ?_⟩, fun hmem => ?_⟩
    · exact absurd (hspace _ hmem) (by decide)
    · exact absurd (hx _ (List.takeWhile_subset _ hmem)) (by decide)
    · exact absurd (he' _ hmem) (by decide)
  rw [lineValue, hcstr, ← hlen, List.drop_left, List.takeWhile_eq_self_iff.2 (bne_of_notMem hhash),
    trim_append_space hspace he', kept]

/-- No comment starts with a letter. -/
lemma not_matches_commentRe_cons {c : UInt8} (hc : isAlpha (toLower c) = true) {t u : Str}
    (hu : u <+: c :: t) : ¬commentRe.Matches u := by
  have hblank : isBlank c = false := by
    by_contra h
    simp only [isBlank, Bool.not_eq_false, Bool.or_eq_true, beq_iff_eq] at h
    rcases h with rfl | rfl <;> exact absurd hc (by decide)
  have hhash : c ≠ Byte.hash := by
    rintro rfl
    exact absurd hc (by decide)
  exact not_matches_commentRe blanks_nil hblank hhash t hu

/-- A line that starts with a letter is the most that is taken of it. -/
lemma atMost_letter {c : UInt8} {t e : Str} (hc : isAlpha (toLower c) = true) (he : Eol e)
    (v : Str) (b : Bool) : AtMost b (c :: t ++ e ++ v) (c :: t ++ e).length scanRules := by
  obtain ⟨z, -, rfl⟩ := he.exists_eq
  rw [← List.append_assoc]
  exact atMost_line b fun u hu => not_matches_commentRe_cons hc hu

/-- The first byte of a word in some letter case. -/
lemma Spells.exists_cons {kw word : Str} (h : Spells kw word) (hword : word ≠ []) :
    ∃ c t, kw = c :: t ∧ toLower c ∈ (word.map toLower).head? := by
  rw [← h]
  cases kw with
  | nil => exact absurd (List.map_eq_nil_iff.1 h.symm) hword
  | cons c t => exact ⟨c, t, rfl, rfl⟩

lemma matches_userAgentRe {kw sp x e : Str} (hkw : Spells kw (lit "User-agent:"))
    (hsp : Blanks sp) (hx : ∀ c ∈ x, isValue c = true) (hne : x ≠ []) (he : Eol e) :
    userAgentRe.Matches (kw ++ (sp ++ x ++ e)) := by
  have hvalue : (Regex.plus (.cls isValue)).Matches x :=
    Regex.matches_plus_cls_iff.2 ⟨hne, hx⟩
  have htail : ((Regex.opt commentl).seq newline).Matches ([] ++ e) :=
    (Regex.matches_opt_iff.2 (Or.inr rfl)).seq (matches_newline_iff.2 he)
  rw [List.append_assoc]
  exact (matches_keyword_iff.2 hkw).seq
    ((Regex.matches_star_cls_iff.2 hsp).seq (hvalue.seq htail))

lemma matches_ruleRe {word kw sp x e : Str} (hkw : Spells kw word) (hsp : Blanks sp)
    (hx : ∀ c ∈ x, isValue c = true) (he : Eol e) :
    (ruleRe word).Matches (kw ++ (sp ++ x ++ e)) := by
  have hvalue : (Regex.star (.cls isValue)).Matches x := Regex.matches_star_cls_iff.2 hx
  have htail : ((Regex.opt commentl).seq (.opt newline)).Matches ([] ++ e) :=
    (Regex.matches_opt_iff.2 (Or.inr rfl)).seq
      (Regex.matches_opt_iff.2 (Or.inl (matches_newline_iff.2 he)))
  rw [List.append_assoc]
  exact (matches_keyword_iff.2 hkw).seq
    ((Regex.matches_star_cls_iff.2 hsp).seq (hvalue.seq htail))

lemma find?_userAgent {c : UInt8} {t : Str} (hc : toLower c = 0x75)
    (h : userAgentRe.Matches (c :: t)) :
    scanRules.find? (ScanRule.takes true (c :: t)) = some (atStart userAgentRe .userAgent) := by
  have hcomment : commentRe.accepts (c :: t) = false := by
    refine Regex.accepts_eq_false_iff.2 (not_matches_commentRe_cons ?_ List.prefix_rfl)
    rw [hc]
    decide
  have huser := (Regex.accepts_iff _ _).2 h
  simp [scanRules, List.find?, ScanRule.takes, anywhere, atStart, hcomment, huser]

/-- The words of the rules start with letters other than that of a user agent. -/
lemma isAlpha_word {type : RuleType} {d : UInt8} (hd : d ∈ (type.word.map toLower).head?) :
    isAlpha d = true ∧ d ≠ 0x75 := by
  cases type <;> (obtain rfl := Option.some.inj hd; decide)

lemma find?_rule {type : RuleType} {c : UInt8} {t : Str}
    (hc : (type.word.map toLower).head? = some (toLower c))
    (h : (ruleRe type.word).Matches (c :: t)) :
    scanRules.find? (ScanRule.takes true (c :: t)) = some (ruleRule type) := by
  have hcomment : commentRe.accepts (c :: t) = false :=
    Regex.accepts_eq_false_iff.2 (not_matches_commentRe_cons (isAlpha_word hc).1 List.prefix_rfl)
  have huser : userAgentRe.accepts (c :: t) = false :=
    accepts_userAgentRe_cons (isAlpha_word hc).2 t
  have hrule := (Regex.accepts_iff _ _).2 h
  -- the words of the other types start with other letters
  have hother : ∀ type', type' ≠ type → (ruleRe type'.word).accepts (c :: t) = false := by
    intro type' hne
    refine accepts_ruleRe_cons (fun hmem => ?_) t
    have hheads : (type'.word.map toLower).head? = (type.word.map toLower).head? :=
      (Option.mem_def.1 hmem).trans hc.symm
    revert hne hheads
    cases type <;> cases type' <;> decide
  cases type with
  | allow =>
      simp [scanRules, List.find?, ScanRule.takes, anywhere, atStart, ruleRule, hcomment, huser,
        hrule]
  | disallow =>
      simp [scanRules, List.find?, ScanRule.takes, anywhere, atStart, ruleRule, hcomment, huser,
        hrule, hother]
  | crawlDelay =>
      simp [scanRules, List.find?, ScanRule.takes, anywhere, atStart, ruleRule, hcomment, huser,
        hrule, hother]

/-- The step of the scanner on a line that starts with a letter. -/
lemma run_letter {s : Lexer} (hs : s.atBol = true) {c : UInt8} {t e : Str}
    (hc : isAlpha (toLower c) = true) (he : Eol e) {r : ScanRule UInt8 Bool Label}
    (hfind : scanRules.find? (ScanRule.takes true (c :: t ++ e)) = some r) (v : Str) :
    scanner.run s (c :: t ++ e ++ v) =
      act s r.label (c :: t ++ e) >>= fun s' => scanner.run s' v := by
  rw [← hs] at hfind
  exact Scanner.run_append (by simp) (atMost_letter hc he v _) hfind

/-- After a line the scanner is at the beginning of a line. -/
lemma atBol_eol {s : Lexer} (hs : s.atBol = true) {e : Str} (he : Eol e) (p : Str) :
    { s with atBol := (p ++ e).getLast? == some 0x0A } = s := by
  obtain ⟨z, -, rfl⟩ := he.exists_eq
  rw [← List.append_assoc, List.getLast?_concat, BEq.rfl, ← hs]

/-- A line with a user agent. -/
lemma run_userAgent {s : Lexer} (hs : s.atBol = true) {kw sp x e : Str}
    (hkw : Spells kw (lit "User-agent:")) (hsp : Blanks sp) (hx : ∀ c ∈ x, isValue c = true)
    (hne : x ≠ []) (he : Eol e) (v : Str) :
    scanner.run s (kw ++ (sp ++ x ++ e) ++ v) = scanner.run (s.addUa (kept x)) v := by
  have hvalue : lineValue 11 (kw ++ (sp ++ x ++ e)) = kept x :=
    lineValue_eq (by decide) hkw hsp hx he
  have hmatch := matches_userAgentRe hkw hsp hx hne he
  obtain ⟨c, t, rfl, hc⟩ := hkw.exists_cons (by decide)
  have hc' : toLower c = 0x75 := (Option.some.inj hc).symm
  rw [← List.append_assoc, List.cons_append] at hvalue hmatch ⊢
  rw [run_letter hs (by rw [hc']; decide) he (find?_userAgent hc' hmatch)]
  simp only [atStart, act, atBol_eol hs he, hvalue, ok_bind]

/-- A line with a rule. -/
lemma run_rule {s : Lexer} (hs : s.atBol = true) {type : RuleType} {kw sp x e : Str}
    (hkw : Spells kw type.word) (hsp : Blanks sp) (hx : ∀ c ∈ x, isValue c = true) (he : Eol e)
    (v : Str) :
    scanner.run s (kw ++ (sp ++ x ++ e) ++ v) =
      scanner.run (s.addRule ⟨type, type.keep (kept x)⟩) v := by
  have hvalue : lineValue type.word.length (kw ++ (sp ++ x ++ e)) = kept x :=
    lineValue_eq (by cases type <;> decide) hkw hsp hx he
  have hmatch := matches_ruleRe hkw hsp hx he
  obtain ⟨c, t, rfl, hc⟩ := hkw.exists_cons (by cases type <;> decide)
  rw [← List.append_assoc, List.cons_append] at hvalue hmatch ⊢
  rw [run_letter hs (isAlpha_word hc).1 he (find?_rule hc hmatch)]
  simp only [ruleRule, atStart, act, atBol_eol hs he, hvalue, ok_bind]

end Robots

end Mycelium
