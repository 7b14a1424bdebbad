import Mycelium.Crawler.RobotsLexer

/-!
# Texts of records

A list of records is written as lines: for each record its user agents and then its rules.  The
words are in any letter case, the lines end with LF or CRLF, and blank lines and comments may stand
everywhere between the lines.  The lexer reads the records back from every such text.
-/

namespace Mycelium

open Lib

namespace Robots

/-! ### Records and their lines -/

/-- The name of a user agent: printable, without blanks at its ends and without a hash. -/
structure IsName (name : Str) : Prop where
  ne_nil : name ≠ []
  printable : ∀ c ∈ name, 0x20 ≤ c ∧ c ≤ 0x7E ∧ c ≠ Byte.hash
  first : name.head? ≠ some 0x20
  last : name.getLast? ≠ some 0x20

/-- The path of a rule.  White space, line ends, the hash and the percent sign are among the bytes
with the flag. -/
def IsPath (p : Str) : Prop := ∀ c ∈ p, urlCharTest c urlCharPath = false

structure IsRecord (r : UasRules) : Prop where
  ua_ne_nil : r.ua ≠ []
  rules_ne_nil : r.rules ≠ []
  names : ∀ name ∈ r.ua, IsName name
  paths : ∀ x ∈ r.rules, IsPath x.str

/-- A line that is not skipped. -/
inductive Line where
  | userAgent (name : Str)
  | rule (r : Rule)

namespace Line

def word : Line → Str
  | userAgent _ => lit "User-agent:"
  | rule r => r.type.word

def value : Line → Str
  | userAgent name => name
  | rule r => r.str

def WellFormed : Line → Prop
  | userAgent name => IsName name
  | rule r => IsPath r.str

/-- The text of a line: the word in some letter case, blanks, the value and a line end. -/
def Prints (l : Line) (t : Str) : Prop :=
  ∃ kw sp e, Spells kw l.word ∧ Blanks sp ∧ Eol e ∧ t = kw ++ (sp ++ l.value ++ e)

/-- What the lexer does with a line. -/
def read (s : Lexer) : Line → Lexer
  | userAgent name => s.addUa name
  | rule r => s.addRule r

end Line

/-- The lines of a record. -/
def UasRules.lines (r : UasRules) : List Line := r.ua.map .userAgent ++ r.rules.map .rule

/-- A blank line or a comment. -/
def Skipped (t : Str) : Prop :=
  ∃ sp e, Blanks sp ∧ Eol e ∧ (t = sp ++ e ∨ ∃ x, 0x0A ∉ x ∧ t = sp ++ Byte.hash :: x ++ e)

/-- The texts of a list of lines. -/
inductive Prints : List Line → Str → Prop
  | nil : Prints [] []
  | skip {t : Str} {ls : List Line} {v : Str} : Skipped t → Prints ls v → Prints ls (t ++ v)
  | line {l : Line} {t : Str} {ls : List Line} {v : Str} :
      l.Prints t → Prints ls v → Prints (l :: ls) (t ++ v)

/-! ### Lines -/

lemma isValue_of_ne {c : UInt8} (hhash : c ≠ Byte.hash) (hlf : c ≠ 0x0A) (hcr : c ≠ 0x0D) :
    isValue c = true := by
  simp [isValue, hhash, hlf, hcr]

/-- The white space of a printable text is the blank. -/
lemma isSpace_of_printable {c : UInt8} (hc : 0x20 ≤ c) (hne : c ≠ 0x20) : isSpace c = false := by
  have hlt : ¬c ≤ 0x0D := fun hle => absurd (UInt8.le_trans hc hle) (by decide)
  simp [isSpace, hne, hlt]

lemma IsName.value {name : Str} (h : IsName name) : Value name where
  bytes c hc := by
    obtain ⟨hle, -, hhash⟩ := h.printable c hc
    have hne : ∀ d : UInt8, ¬0x20 ≤ d → c ≠ d := by
      rintro d hd rfl
      exact hd hle
    exact ⟨isValue_of_ne hhash (hne _ (by decide)) (hne _ (by decide)), hne _ (by decide)⟩
  first c hc := by
    refine isSpace_of_printable (h.printable c (List.mem_of_mem_head? hc)).1 ?_
    rintro rfl
    exact h.first hc
  last c hc := by
    refine isSpace_of_printable (h.printable c (List.mem_of_mem_getLast? hc)).1 ?_
    rintro rfl
    exact h.last hc

/-- White space is flagged in a path. -/
lemma urlCharTest_of_isSpace {c : UInt8} (h : isSpace c = true) :
    urlCharTest c urlCharPath = true := by
  simp only [isSpace, Bool.or_eq_true, Bool.and_eq_true, beq_iff_eq, decide_eq_true_eq] at h
  rcases h with rfl | ⟨h9, h13⟩
  · decide
  · have htable : ∀ n < 14, 9 ≤ n → urlCharTest (UInt8.ofNat n) urlCharPath = true := by decide
    have := htable c.toNat (Nat.lt_succ_of_le (UInt8.le_iff_toNat_le.1 h13))
      (UInt8.le_iff_toNat_le.1 h9)
    simpa using this

lemma IsPath.ne {p : Str} (h : IsPath p) {c d : UInt8} (hc : c ∈ p)
    (hd : urlCharTest d urlCharPath = true) : c ≠ d := by
  rintro rfl
  rw [h c hc] at hd
  exact absurd hd (by simp)

lemma IsPath.isSpace_eq_false {p : Str} (h : IsPath p) {c : UInt8} (hc : c ∈ p) :
    isSpace c = false := by
  by_contra hspace
  exact h.ne hc (urlCharTest_of_isSpace (by simpa using hspace)) rfl

lemma IsPath.value {p : Str} (h : IsPath p) : Value p where
  bytes c hc :=
    ⟨isValue_of_ne (h.ne hc (by decide)) (h.ne hc (by decide)) (h.ne hc (by decide)),
      h.ne hc (by decide)⟩
  first _ hc := h.isSpace_eq_false (List.mem_of_mem_head? hc)
  last _ hc := h.isSpace_eq_false (List.mem_of_mem_getLast? hc)

/-- A path is stored as it is written. -/
lemma canonical_of_isPath {p : Str} (h : IsPath p) : canonical p = p := by
  have hpct : Byte.percent ∉ p := fun hmem => h.ne hmem (by decide) rfl
  have hclean : Clean urlCharPath p := by
    intro c hc
    rw [tokens_of_not_mem hpct] at hc
    simp only [List.mem_map, Tok.raw.injEq, exists_eq_right] at hc
    exact h c hc
  rw [canonical, escape_of_clean hclean, unescapeNot, unescapeIf_eq_flatMap,
    tokens_of_not_mem hpct, List.flatMap_map]
  simp [Tok.unescaped]

lemma keep_of_isPath {p : Str} (h : IsPath p) (type : RuleType) : type.keep p = p := by
  cases type with
  | crawlDelay => rfl
  | _ => exact canonical_of_isPath h

/-- A line is read. -/
lemma run_line {s : Lexer} (hs : s.atBol = true) {l : Line} (hl : l.WellFormed) {t : Str}
    (ht : l.Prints t) (v : Str) : scanner.run s (t ++ v) = scanner.run (l.read s) v := by
  obtain ⟨kw, sp, e, hkw, hsp, he, rfl⟩ := ht
  cases l with
  | userAgent name =>
      have hrun := run_userAgent hs hkw hsp hl.value.isValue hl.ne_nil he v
      rwa [hl.value.kept_eq] at hrun
  | rule r =>
      have hrun := run_rule hs hkw hsp (IsPath.value hl).isValue he v
      rwa [(IsPath.value hl).kept_eq, keep_of_isPath hl] at hrun

lemma run_skipped {s : Lexer} (hs : s.atBol = true) {t : Str} (ht : Skipped t) (v : Str) :
    scanner.run s (t ++ v) = scanner.run s v := by
  have hbol : { s with atBol := true } = s := by rw [← hs]
  obtain ⟨sp, e, hsp, he, rfl | ⟨x, hx, rfl⟩⟩ := ht
  · rw [run_blank s hsp he, hbol]
  · rw [run_comment s hsp hx he, hbol]

lemma atBol_read (s : Lexer) (l : Line) : (l.read s).atBol = s.atBol := by
  cases l with
  | userAgent name =>
      simp only [Line.read, Lexer.addUa, Lexer.readingUas]
      split <;> rfl
  | rule r => rfl

/-- The lines of a text are read one after the other. -/
theorem run_prints {s : Lexer} (hs : s.atBol = true) {ls : List Line}
    (hls : ∀ l ∈ ls, l.WellFormed) {t : Str} (ht : Prints ls t) :
    scanner.run s t = .ok (ls.foldl Line.read s) := by
  induction ht generalizing s with
  | nil => rfl
  | skip ht _ ih => rw [run_skipped hs ht, ih hs hls]
  | @line l t ls v ht _ ih =>
      rw [run_line hs (hls l (by simp)) ht, List.foldl_cons]
      exact ih (by rw [atBol_read, hs]) fun l' hl' => hls l' (List.mem_cons_of_mem l hl')

/-! ### Grouping -/

/-- The states between two records. -/
def Ready (s : Lexer) : Prop :=
  (s.state = .start ∧ s.current = {}) ∨ (s.state = .rules ∧ s.current.ua ≠ [])

/-- The first user agent of a record closes the record before it, as the end of the file would. -/
lemma Ready.readingUas {s : Lexer} (hs : Ready s) :
    s.readingUas.current = {} ∧ s.readingUas.uasRulesAll = s.eof.uasRulesAll := by
  rcases hs with ⟨hstate, hcurrent⟩ | ⟨hstate, hua⟩
  · simp [Lexer.readingUas, Lexer.eof, hstate, hcurrent]
  · simp [Lexer.readingUas, Lexer.eof, Lexer.close, hstate, hua]

/-- The record that is read gets more user agents and rules. -/
def Lexer.extend (s : Lexer) (us : List Str) (xs : List Rule) : Lexer :=
  { s with current := ⟨s.current.ua ++ us, s.current.rules ++ xs⟩ }

lemma Lexer.extend_extend (s : Lexer) (us us' : List Str) (xs xs' : List Rule) :
    (s.extend us xs).extend us' xs' = s.extend (us ++ us') (xs ++ xs') := by
  simp [extend]

lemma foldl_userAgents {s : Lexer} (hs : s.state = .readingUas) (us : List Str) :
    (us.map Line.userAgent).foldl Line.read s = s.extend us [] := by
  induction us generalizing s with
  | nil => simp [Lexer.extend]
  | cons u us ih =>
      have hread : Line.read s (.userAgent u) = s.extend [u] [] := by
        simp [Line.read, Lexer.addUa, Lexer.readingUas, Lexer.extend, hs]
      rw [List.map_cons, List.foldl_cons, hread, ih (s := s.extend [u] []) hs,
        Lexer.extend_extend]
      rfl

lemma foldl_rules {s : Lexer} (hs : s.state = .rules) (xs : List Rule) :
    (xs.map Line.rule).foldl Line.read s = s.extend [] xs := by
  induction xs generalizing s with
  | nil => simp [Lexer.extend]
  | cons x xs ih =>
      have hread : Line.read s (.rule x) = s.extend [] [x] := by
        simp [Line.read, Lexer.addRule, Lexer.rules, Lexer.extend, hs]
      rw [List.map_cons, List.foldl_cons, hread, ih (s := s.extend [] [x]) hs,
        Lexer.extend_extend]
      rfl

/-- The lines of a record add the record. -/
lemma foldl_lines {s : Lexer} (hs : Ready s) {r : UasRules} (hr : IsRecord r) :
    Ready (r.lines.foldl Line.read s) ∧
      (r.lines.foldl Line.read s).eof.uasRulesAll = s.eof.uasRulesAll ++ [r] := by
  obtain ⟨u, us, hua⟩ := List.exists_cons_of_ne_nil hr.ua_ne_nil
  obtain ⟨x, xs, hrules⟩ := List.exists_cons_of_ne_nil hr.rules_ne_nil
  obtain ⟨hcurrent, hall⟩ := hs.readingUas
  have hfirst : Line.read s (.userAgent u) = s.readingUas.extend [u] [] := by
    simp [Line.read, Lexer.addUa, Lexer.extend]
  have hrule : ∀ t : Lexer, Line.read t (.rule x) = t.rules.extend [] [x] := by
    intro t
    simp [Line.read, Lexer.addRule, Lexer.rules, Lexer.extend]
  have hfold : r.lines.foldl Line.read s =
      { s.readingUas with state := .rules, current := r } := by
    rw [UasRules.lines, hua, hrules, List.foldl_append, List.map_cons, List.foldl_cons, hfirst,
      foldl_userAgents rfl, List.map_cons, List.foldl_cons, hrule, foldl_rules rfl]
    simp [Lexer.extend, Lexer.rules, hcurrent, ← hua, ← hrules]
  rw [hfold]
  refine ⟨Or.inr ⟨rfl, hr.ua_ne_nil⟩, ?_⟩
  simp [Lexer.eof, Lexer.close, hr.ua_ne_nil, hall]

lemma foldl_records {s : Lexer} (hs : Ready s) {records : List UasRules}
    (hrecords : ∀ r ∈ records, IsRecord r) :
    ((records.flatMap UasRules.lines).foldl Line.read s).eof.uasRulesAll =
      s.eof.uasRulesAll ++ records := by
  induction records generalizing s with
  | nil => simp
  | cons r records ih =>
      obtain ⟨hready, hall⟩ := foldl_lines hs (hrecords r (by simp))
      rw [List.flatMap_cons, List.foldl_append,
        ih hready fun r' hr' => hrecords r' (List.mem_cons_of_mem r hr'), hall]
      simp

/-- A text of two records, with a comment and an empty line in the first. -/
def sample : Str :=
  lit "USER-agent: a b\r\n" ++ (lit "# c\n" ++ (lit "\n" ++ (lit "Disallow: /x\n" ++
    (lit "user-agent: *\n" ++ (lit "Allow:\n" ++ [])))))

def sampleRecords : List UasRules :=
  [⟨[lit "a b"], [⟨.disallow, lit "/x"⟩]⟩, ⟨[lit "*"], [⟨.allow, []⟩]⟩]

lemma isRecord_sample : ∀ r ∈ sampleRecords, IsRecord r := by
  have hname : IsName (lit "a b") := by
    rw [show lit "a b" = [0x61, 0x20, 0x62] by decide]
    exact ⟨by simp, by simp [Byte.hash], by decide, by decide⟩
  have hstar : IsName (lit "*") := by
    rw [show lit "*" = [0x2A] by decide]
    exact ⟨by simp, by simp [Byte.hash], by decide, by decide⟩
  have hpath : IsPath (lit "/x") := by
    rw [show lit "/x" = [0x2F, 0x78] by decide]
    simp only [IsPath, List.forall_mem_cons]
    exact ⟨by decide, by decide, by simp⟩
  intro r hr
  rcases List.mem_cons.1 hr with rfl | hr
  · exact ⟨by simp, by simp, by simpa using hname, by simpa using hpath⟩
  · obtain rfl := List.mem_singleton.1 hr
    exact ⟨by simp, by simp, by simpa using hstar, by simp [IsPath]⟩

lemma prints_sample : Prints (sampleRecords.flatMap UasRules.lines) sample := by
  have hblank : Blanks [0x20] := by simp [Blanks, isBlank]
  have hlf : Eol [0x0A] := Or.inl rfl
  have hcrlf : Eol [0x0D, 0x0A] := Or.inr rfl
  have h1 : (Line.userAgent (lit "a b")).Prints (lit "USER-agent: a b\r\n") :=
    ⟨lit "USER-agent:", [0x20], [0x0D, 0x0A], by unfold Spells; decide, hblank, hcrlf, by decide⟩
  have h2 : Skipped (lit "# c\n") :=
    ⟨[], [0x0A], blanks_nil, hlf, Or.inr ⟨lit " c", by decide, by decide⟩⟩
  have h3 : Skipped (lit "\n") := ⟨[], [0x0A], blanks_nil, hlf, Or.inl (by decide)⟩
  have h4 : (Line.rule ⟨.disallow, lit "/x"⟩).Prints (lit "Disallow: /x\n") :=
    ⟨lit "Disallow:", [0x20], [0x0A], rfl, hblank, hlf, by decide⟩
  have h5 : (Line.userAgent (lit "*")).Prints (lit "user-agent: *\n") :=
    ⟨lit "user-agent:", [0x20], [0x0A], by unfold Spells; decide, hblank, hlf, by decide⟩
  have h6 : (Line.rule ⟨.allow, []⟩).Prints (lit "Allow:\n") :=
    ⟨lit "Allow:", [], [0x0A], rfl, blanks_nil, hlf, by decide⟩
  exact .line h1 (.skip h2 (.skip h3 (.line h4 (.line h5 (.line h6 .nil)))))

end Robots

end Mycelium
