import Mycelium.Lib.Tokenizer
import Mycelium.Html.Entities
import Mycelium.Html.HtmlLexer

/-!
# The scanner of HTML

The rules of `html.ll` and their actions, and `html_lex`, which runs the scanner over a document.

The rules are in the order of the source, which decides between rules that match pieces of the same
length.  Each of them is active in some start conditions only.  The scanner ignores letter case.
-/

namespace Mycelium

open Lib

namespace Html

/-! ### Patterns -/

/-- The bytes of `s`, which `ws` is made of. -/
def isWhite (c : UInt8) : Bool := c == 0x20 || c == 0x0A || c == 0x0D || c == 0x09

def isNameStart (c : UInt8) : Bool := isAlpha c || c == 0x5F || c == 0x3A

def isNameChar (c : UInt8) : Bool := isNameStart c || isDigit c || c == 0x2E || c == 0x2D

/-- The dot of a pattern. -/
def dot : Regex UInt8 := .cls (· != 0x0A)

def ws : Regex UInt8 := .star (.cls isWhite)

def name : Regex UInt8 := .seq (.cls isNameStart) (.star (.cls isNameChar))

def number : Regex UInt8 := .plus (.cls isDigit)

def nameToken : Regex UInt8 := .plus (.cls isNameChar)

def referenceEnd : Regex UInt8 := .alt (.chr 0x3B) (.chr 0x0A)

/-! The delimiters. -/

def com : Str := [0x2D, 0x2D]
def dsc : Str := [0x5D]
def dso : Str := [0x5B]
def etago : Str := [0x3C, 0x2F]
def mdc : Str := [0x3E]
def mdo : Str := [0x3C, 0x21]
def msc : Str := [0x5D, 0x5D]
def net : Str := [0x2F]
def pero : Str := [0x25]
def pic : Str := [0x3E]
def pio : Str := [0x3C, 0x3F]
def stago : Str := [0x3C]
def tagc : Str := [0x3E]
/-- The text "<![CDATA[". -/
def cdatao : Str := [0x3C, 0x21, 0x5B, 0x43, 0x44, 0x41, 0x54, 0x41, 0x5B]
def cdatac : Str := [0x5D, 0x5D, 0x3E]

def delim (s : Str) : Regex UInt8 := .cat (s.map .chr)

/-- A word in any letter case. -/
def anyCase (s : Str) : Regex UInt8 := .cat (s.map fun d => .cls fun c => toLower c == toLower d)

/-- A text between two marks of one kind. -/
def quoted (q : UInt8) : Regex UInt8 := .cat [.chr q, .star (.cls (· != q)), .chr q]

def literal : Regex UInt8 := .alt (quoted 0x22) (quoted 0x27)

/-- The bytes of an attribute value without quotes.  The carriage return is one of them. -/
def isUnquoted (c : UInt8) : Bool :=
  !(c == 0x20 || c == 0x27 || c == 0x22 || c == 0x09 || c == 0x0A || c == 0x3E)

/-- Everything up to the next tag, or one byte. -/
def dataRe : Regex UInt8 := .alt (.star (.cls (· != 0x3C))) dot

/-! ### Rules -/

/-- The start conditions. -/
inductive Cond where
  | initial | cdata | tag | attr | attrval | script | md | com | ds
deriving DecidableEq, Repr

/-- The rules, by the constructs that they recognize. -/
inductive Label where
  | endTag | scriptEnd | emptyEndTag | markupDecl | emptyComment | commentDecl | markedSection
  | markedSectionEnd | pi | startTag | emptyStartTag | cdataOpen | cdataClose | cdataSmallClose
  | data | scriptData | attrname | name | nmtoken | literal | unquoted | attrvalClose | tagClose
  | netClose | unclosed | badCharacter | peroRef | mdNumber | mdName | mdLiteral | mdClose
  | commentClose | mdSubset | commentData | mdIllegal | dsEnd | dsClose | dsData | cdataUnmatched
  | newlines | unmatched
deriving DecidableEq, Repr

namespace Label

/-- The start conditions in which a rule is active; without any in the source it is `INITIAL`. -/
def conds : Label → List Cond
  | scriptEnd | scriptData => [.script]
  | cdataClose | cdataSmallClose | cdataUnmatched => [.cdata]
  | attrname | name => [.attr]
  | nmtoken | literal | unquoted | attrvalClose => [.attrval]
  | tagClose => [.attr, .tag]
  | netClose => [.attr, .attrval]
  | unclosed | badCharacter => [.attr, .attrval, .tag]
  | peroRef | mdNumber | mdName | mdLiteral | mdClose | mdSubset | mdIllegal => [.md]
  | commentClose | commentData => [.com]
  | dsEnd | dsClose | dsData => [.ds]
  | newlines | unmatched => [.initial, .cdata, .tag, .attr, .attrval, .script, .md, .com, .ds]
  | _ => [.initial]

def pattern : Label → Regex UInt8
  | endTag => .cat [delim etago, Html.name, ws]
  | scriptEnd => .cat [delim etago, ws, anyCase (lit "script"), ws, delim tagc]
  | emptyEndTag => .cat [delim etago, delim tagc]
  | markupDecl => .cat [delim mdo, Html.name, ws]
  | emptyComment => .cat [delim mdo, delim mdc]
  | commentDecl => .cat [delim mdo, delim com]
  | markedSection => .cat [delim mdo, delim dso, ws]
  | markedSectionEnd => .cat [delim msc, delim mdc]
  | pi => .cat [delim pio, .star (.cls (· != 0x3E)), delim pic]
  | startTag => .cat [delim stago, Html.name, ws]
  | emptyStartTag => .cat [delim stago, delim tagc]
  | cdataOpen => anyCase cdatao
  | cdataClose => .cat [.star dot, delim cdatac]
  | cdataSmallClose => delim cdatac
  | data => dataRe
  | scriptData => dataRe
  | attrname => .cat [Html.name, ws, .chr 0x3D, ws]
  | name => .cat [Html.name, ws]
  | nmtoken => .cat [nameToken, ws]
  | literal => .cat [Html.literal, ws]
  | unquoted => .cat [.plus (.cls isUnquoted), ws]
  | attrvalClose => delim tagc
  | tagClose => delim tagc
  | netClose => .cat [delim net, delim tagc]
  | unclosed => delim stago
  | badCharacter => dot
  | peroRef => .cat [delim pero, Html.name, .opt referenceEnd, ws]
  | mdNumber => .cat [number, ws]
  | mdName => .cat [Html.name, ws]
  | mdLiteral => .cat [Html.literal, ws]
  | mdClose => delim mdc
  | commentClose => .cat [delim com, .star ws, delim tagc]
  | mdSubset => delim dso
  | commentData => dot
  | mdIllegal => dot
  | dsEnd => .cat [delim msc, delim mdc]
  | dsClose => delim dsc
  | dsData => .plus (.cls (· != 0x5D))
  | cdataUnmatched => dot
  | newlines => .plus (.cls fun c => c == 0x0A || c == 0x0D)
  | unmatched => dot

/-- The rules in the order of the source. -/
def all : List Label :=
  [endTag, scriptEnd, emptyEndTag, markupDecl, emptyComment, commentDecl, markedSection,
    markedSectionEnd, pi, startTag, emptyStartTag, cdataOpen, cdataClose, cdataSmallClose, data,
    scriptData, attrname, name, nmtoken, literal, unquoted, attrvalClose, tagClose, netClose,
    unclosed, badCharacter, peroRef, mdNumber, mdName, mdLiteral, mdClose, commentClose, mdSubset,
    commentData, mdIllegal, dsEnd, dsClose, dsData, cdataUnmatched, newlines, unmatched]

end Label

def scanRules : List (ScanRule UInt8 Cond Label) :=
  Label.all.map fun l => ⟨l.conds.contains, l.pattern, l⟩

/-- The close of a section stays in the text: it is the trailing context of its rule. -/
def trail : Label → ℕ
  | .cdataClose => 3
  | _ => 0

/-! ### Actions -/

/-- The state of the scanner: its start condition, the tokens since the last `process`, and the
lexer with the output. -/
structure State where
  cond : Cond := .initial
  tokens : List Token := []
  lexer : HtmlLexer

/-- The bytes that the loops at the end of a token strip.  The tab is meant, and 0x11 is written. -/
def isStripped (c : UInt8) : Bool := c == 0x20 || c == 0x11 || c == 0x0A || c == 0x0D

def stripBlanks (yytext : Str) : Str := yytext.rdropWhile isStripped

def isQuote (c : UInt8) : Bool := c == 0x22 || c == 0x27

/-- The content of a literal. -/
def unquote (yytext : Str) : Str :=
  let s := stripBlanks yytext
  let s := if s.getLast?.any isQuote then s.dropLast else s
  if s.head?.any isQuote then s.tail else s

/-- The name of an attribute in front of the equals sign. -/
def attrnameText (yytext : Str) : Str := yytext.rdropWhile fun c => c == 0x3D || isSpace c

/-- The name in the end tag of a script; only blanks are removed in front of it. -/
def scriptEndText (yytext : Str) : Str :=
  ((yytext.drop 2).dropWhile (· == 0x20)).rdropWhile fun c => isStripped c || c == 0x3E

/-- `strncasecmp(yytext, "script", yyleng) == 0`: as many bytes are compared as the name has. -/
def isScript (text : Str) : Bool := (text.map toLower).isPrefixOf (lit "script")

/-- The start condition after the action of a rule. -/
def next (c : Cond) (label : Label) (yytext : Str) : Cond :=
  match label with
  | .endTag => .tag
  | .markupDecl => .md
  | .commentDecl | .dsClose => .com
  | .markedSection | .mdSubset => .ds
  | .startTag => if isScript (stripBlanks (yytext.drop 1)) then .script else .attr
  | .cdataOpen => .cdata
  | .attrname => .attrval
  | .nmtoken | .literal | .unquoted => .attr
  | .scriptEnd | .cdataClose | .cdataSmallClose | .attrvalClose | .tagClose | .netClose | .unclosed
  | .mdClose | .commentClose | .dsEnd => .initial
  | _ => c

namespace State

def addtoken (e : EntityHandler) (s : State) (type : SgmlTok) (text : Str)
    (caseInsensitive : Bool) : State :=
  let content := e.replaceAllEntities text
  { s with
    tokens := s.tokens ++ [⟨type, if caseInsensitive then content.map toLower else content⟩] }

def process (s : State) : State := { s with tokens := [], lexer := s.lexer.process s.tokens }

def warn (s : State) (warning yytext : Str) : State :=
  { s with lexer := { s.lexer with
      warnings := s.lexer.warnings ++ warning ++ lit ": yytext: \"" ++ yytext ++ lit "\"\n" } }

/-- What the action of a rule does besides the change of the condition. -/
def emit (e : EntityHandler) (s : State) (label : Label) (yytext : Str) : State :=
  match label with
  | .endTag => s.addtoken e .end_ (stripBlanks (yytext.drop 2)) true
  -- the token waits for the next call of `process`
  | .scriptEnd => s.addtoken e .end_ (scriptEndText yytext) true
  | .emptyEndTag => s.warn (lit "empty end tag not supported") yytext
  | .markupDecl => s.addtoken e .markupDecl yytext true
  | .emptyComment => s.process
  | .markedSection => s.warn (lit "marked sections not supported") yytext
  | .markedSectionEnd => s.warn (lit "unmatched marked sections end") yytext
  | .pi => (s.addtoken e .pi yytext false).process
  | .startTag =>
      let text := stripBlanks (yytext.drop 1)
      let s := s.addtoken e .start text true
      if isScript text then s.process else s
  | .emptyStartTag => s.warn (lit "empty start tag not supported") yytext
  | .cdataOpen => s.warn (lit "CDATA open: ") yytext
  | .cdataClose => (s.warn (lit "CDATA close: ") yytext).process
  | .cdataSmallClose => s.warn (lit "CDATA small close: ") yytext
  | .data => (s.addtoken e .data yytext false).process
  | .attrname => s.addtoken e .attrname (attrnameText yytext) true
  | .name | .mdName => s.addtoken e .name yytext true
  | .nmtoken => s.addtoken e .nmtoken yytext false
  | .literal => s.addtoken e .literal (unquote yytext) false
  | .unquoted => s.addtoken e .literal (stripBlanks yytext) false
  | .attrvalClose | .unclosed | .commentClose => s.process
  | .tagClose | .netClose | .mdClose => (s.addtoken e .tagc yytext false).process
  | .badCharacter => s.warn (lit "bad character in tag") yytext
  | .peroRef => s.warn (lit "parameter entity reference") yytext
  | .mdNumber => s.addtoken e .number yytext false
  | .mdLiteral => s.addtoken e .literal yytext false
  | .mdIllegal => s.warn (lit "illegal character in markup declaration") yytext
  | .dsData => s.warn (lit "declaration subset: skipping") yytext
  | .cdataUnmatched => s.warn (lit "cdata unmatched: ") yytext
  | .unmatched => s.warn (lit "unmatched: ") yytext
  | .commentDecl | .scriptData | .mdSubset | .commentData | .dsEnd | .dsClose | .newlines => s

end State

def tokenizer (e : EntityHandler) : Tokenizer UInt8 Cond Label State where
  rules := scanRules
  trail := trail
  cond := State.cond
  act s label yytext := { s.emit e label yytext with cond := next s.cond label yytext }

/-- A bound on the steps: every step takes a byte, but the one that leaves a section may take
none. -/
def steps (s : State) (w : Str) : ℕ := 2 * w.length + [s.cond].count .cdata

/-! ### The function `html_lex` -/

/-- The bytes of a text that are written.  A `char` has a sign, so that bytes above 0x7F are
dropped. -/
def printed (s : Str) : Str := s.filter fun c => 0x08 < c && c < 0x80

/-- `operator<<` for a link. -/
def printLink (l : Link) : Str := 0x01 :: printed l.url ++ 0x02 :: printed l.txt ++ [0x03]

/-- `struct ProcHTML`. -/
structure ProcHtml where
  baseUrl : Str
  text : Str
  links : Str
  analysis : Analysis
  warnings : Str
deriving DecidableEq

/-- What the lexer has written. -/
def output (baseUrl : Str) (s : HtmlLexer) : ProcHtml where
  baseUrl := baseUrl
  text := s.txtout
  links := s.lnkout.flatMap printLink
  analysis := s.analysis
  warnings := s.warnings

/-- The lexer at the end of a document. -/
def yylex (e : EntityHandler) (lexer : HtmlLexer) (htmlIn : Str) : HtmlLexer :=
  ((tokenizer e).run steps { lexer := lexer } htmlIn).lexer

def htmlLex (e : EntityHandler) (htmlIn baseUrl : Str) : Except Exn ProcHtml := do
  let lexer ← HtmlLexer.construct (if baseUrl.isEmpty then none else some baseUrl) false
  .ok (output baseUrl (yylex e lexer htmlIn))

/-! ### Words of the patterns -/

/-- A text of white space. -/
def White (sp : Str) : Prop := ∀ c ∈ sp, isWhite c = true

lemma isWhite_iff {a : UInt8} : isWhite a = true ↔ a = 0x20 ∨ a = 0x0A ∨ a = 0x0D ∨ a = 0x09 := by
  simp only [isWhite, Bool.or_eq_true, beq_iff_eq, or_assoc]

lemma isQuote_iff {a : UInt8} : isQuote a = true ↔ a = 0x22 ∨ a = 0x27 := by
  simp only [isQuote, Bool.or_eq_true, beq_iff_eq]

lemma matches_ws_iff {u : Str} : ws.Matches u ↔ White u := Regex.matches_star_cls_iff

/-- A piece with white space behind it. -/
lemma matches_cat_ws_iff {r : Regex UInt8} {u : Str} :
    (Regex.cat [r, ws]).Matches u ↔ ∃ x sp, r.Matches x ∧ White sp ∧ x ++ sp = u := by
  simp only [Regex.cat, Regex.matches_seq_iff, matches_ws_iff]

/-- White space behind a text without `d` stops at the first other byte behind `d`. -/
lemma length_le_of_white {d : UInt8} {r sp x z w : Str} (hr : d ∉ r) (hsp : White sp)
    (hw : ∀ a ∈ w.head?, isWhite a = false) (h : r ++ sp <+: (x ++ d :: z) ++ w) :
    (r ++ sp).length ≤ (x ++ d :: z).length := by
  cases w with
  | nil => simpa using h.length_le
  | cons a w =>
      rcases prefix_append_cons_cases h with hle | ⟨t, -, heq⟩
      · exact hle.length_le
      · have heq' : x ++ d :: (z ++ a :: t) = r ++ sp := by simpa using heq.symm
        obtain ⟨r', -, rfl⟩ := exists_of_append_cons_eq_append heq' hr
        have hwhite := hsp a (by simp)
        rw [hw a rfl] at hwhite
        exact absurd hwhite (by simp)

lemma matches_delim_iff {s u : Str} : (delim s).Matches u ↔ u = s := by
  have himage := Regex.matches_cat_image_iff (f := id) (s := s) (w := u)
  rwa [List.map_id, List.map_id] at himage

lemma matches_anyCase_iff {s u : Str} : (anyCase s).Matches u ↔ u.map toLower = s.map toLower :=
  Regex.matches_cat_image_iff

lemma matches_name_iff {u : Str} : name.Matches u ↔
    ∃ a t, isNameStart a = true ∧ (∀ c ∈ t, isNameChar c = true) ∧ u = a :: t := by
  rw [name, Regex.matches_seq_iff]
  simp only [Regex.matches_cls_iff, Regex.matches_star_cls_iff]
  constructor
  · rintro ⟨x, t, ⟨a, ha, rfl⟩, ht, rfl⟩
    exact ⟨a, t, ha, ht, rfl⟩
  · rintro ⟨a, t, ha, ht, rfl⟩
    exact ⟨[a], t, ⟨a, ha, rfl⟩, ht, rfl⟩

lemma matches_dataRe_iff {u : Str} : dataRe.Matches u ↔ 0x3C ∉ u ∨ u.length = 1 := by
  rw [dataRe, Regex.matches_alt_iff, Regex.matches_star_cls_iff, forall_bne_iff, dot,
    Regex.matches_cls_iff]
  constructor
  · rintro (h | ⟨a, -, rfl⟩)
    · exact Or.inl h
    · exact Or.inr rfl
  · rintro (h | h)
    · exact Or.inl h
    · obtain ⟨a, rfl⟩ := List.length_eq_one_iff.1 h
      -- a line end is data by the first part
      by_cases ha : a = 0x0A
      · exact Or.inl (by rw [ha]; decide)
      · exact Or.inr ⟨a, by simpa using ha, rfl⟩

lemma matches_cdataClose_iff {u : Str} : Label.cdataClose.pattern.Matches u ↔
    ∃ s, 0x0A ∉ s ∧ u = s ++ cdatac := by
  simp only [Label.pattern, Regex.cat, dot, Regex.matches_seq_iff, matches_delim_iff,
    Regex.matches_star_cls_iff, forall_bne_iff]
  constructor
  · rintro ⟨s, _, hs, rfl, rfl⟩
    exact ⟨s, hs, rfl⟩
  · rintro ⟨s, hs, rfl⟩
    exact ⟨s, _, hs, rfl, rfl⟩

lemma matches_quoted_iff {q : UInt8} {u : Str} :
    (quoted q).Matches u ↔ ∃ s, q ∉ s ∧ u = q :: (s ++ [q]) := by
  simp only [quoted, Regex.cat, Regex.chr, Regex.matches_seq_iff, Regex.matches_cls_iff,
    Regex.matches_star_cls_iff, beq_iff_eq, forall_bne_iff]
  constructor
  · rintro ⟨_, _, ⟨c, rfl, rfl⟩, ⟨s, _, hs, ⟨d, rfl, rfl⟩, rfl⟩, rfl⟩
    exact ⟨s, hs, rfl⟩
  · rintro ⟨s, hs, rfl⟩
    exact ⟨[q], s ++ [q], ⟨q, rfl, rfl⟩, ⟨s, [q], hs, ⟨q, rfl, rfl⟩, rfl⟩, rfl⟩

lemma matches_literal_iff {u : Str} :
    literal.Matches u ↔ ∃ q s, isQuote q = true ∧ q ∉ s ∧ u = q :: (s ++ [q]) := by
  simp only [literal, Regex.matches_alt_iff, matches_quoted_iff, isQuote_iff]
  constructor
  · rintro (⟨s, hs, rfl⟩ | ⟨s, hs, rfl⟩)
    · exact ⟨_, s, Or.inl rfl, hs, rfl⟩
    · exact ⟨_, s, Or.inr rfl, hs, rfl⟩
  · rintro ⟨q, s, rfl | rfl, hs, rfl⟩
    · exact Or.inl ⟨s, hs, rfl⟩
    · exact Or.inr ⟨s, hs, rfl⟩

lemma isNameChar_of_isNameStart {a : UInt8} (h : isNameStart a = true) : isNameChar a = true := by
  simp [isNameChar, h]

lemma isNameChar_of_name {u : Str} (h : name.Matches u) : ∀ c ∈ u, isNameChar c = true := by
  obtain ⟨a, t, ha, ht, rfl⟩ := matches_name_iff.1 h
  exact List.forall_mem_cons.2 ⟨isNameChar_of_isNameStart ha, ht⟩

/-- A byte of a name is none of the bytes with a meaning. -/
lemma ne_of_isNameChar {a b : UInt8} (ha : isNameChar a = true) (hb : isNameChar b = false) :
    a ≠ b := by
  rintro rfl
  rw [ha] at hb
  exact absurd hb (by simp)

lemma ne_of_isNameStart {a b : UInt8} (ha : isNameStart a = true) (hb : isNameStart b = false) :
    a ≠ b := by
  rintro rfl
  rw [ha] at hb
  exact absurd hb (by simp)

lemma isNameChar_of_isWhite {a : UInt8} (h : isWhite a = true) : isNameChar a = false := by
  rcases isWhite_iff.1 h with rfl | rfl | rfl | rfl <;> decide

lemma matches_scriptEnd {u : Str} (h : Label.scriptEnd.pattern.Matches u) :
    ∃ w₁ k w₂, White w₁ ∧ k.map toLower = lit "script" ∧ White w₂ ∧
      u = 0x3C :: 0x2F :: (w₁ ++ (k ++ w₂) ++ [0x3E]) := by
  simp only [Label.pattern, Regex.cat, Regex.matches_seq_iff, matches_delim_iff, matches_ws_iff,
    matches_anyCase_iff] at h
  obtain ⟨x, y, rfl, ⟨w₁, z, hw₁, ⟨k, t, hk, ⟨w₂, q, hw₂, rfl, rfl⟩, rfl⟩, rfl⟩, rfl⟩ := h
  exact ⟨w₁, k, w₂, hw₁, hk, hw₂, by simp [etago, tagc]⟩

lemma isNameChar_of_script {k : Str} (hk : k.map toLower = lit "script") :
    ∀ c ∈ k, isNameChar c = true := by
  intro c hc
  have hmem : toLower c ∈ lit "script" := hk ▸ List.mem_map.2 ⟨c, hc, rfl⟩
  have halpha : isAlpha (toLower c) = true := by
    have hall : (lit "script").all isAlpha = true := by decide
    exact List.all_eq_true.1 hall _ hmem
  simp only [isNameChar, isNameStart, isAlpha, toLower, Bool.or_eq_true, Bool.and_eq_true,
    decide_eq_true_eq] at halpha ⊢
  grind

lemma rdropWhile_of_isNameChar {p : UInt8 → Bool} (hp : ∀ c, p c = true → isNameChar c = false)
    {u : Str} (hu : ∀ c ∈ u, isNameChar c = true) : u.rdropWhile p = u := by
  refine List.rdropWhile_eq_self_iff.2 fun hne hlast => ?_
  have hchar := hu _ (List.getLast_mem hne)
  rw [hp _ hlast] at hchar
  exact absurd hchar (by simp)

lemma isNameChar_of_isStripped {a : UInt8} (h : isStripped a = true) : isNameChar a = false := by
  simp only [isStripped, Bool.or_eq_true, beq_iff_eq] at h
  rcases h with ((rfl | rfl) | rfl) | rfl <;> decide

/-! ### Steps -/

variable {c : Cond} {l : Label} {u v w : Str} {n : ℕ}

lemma Label.mem_all (l : Label) : l ∈ all := by cases l <;> decide

/-- The rules by their labels. -/
lemma forall_scanRules {p : Label → Regex UInt8 → Prop} :
    (∀ r ∈ scanRules, r.active c = true → p r.label r.re) ↔
      ∀ l : Label, c ∈ l.conds → p l l.pattern := by
  simp [scanRules, Label.mem_all]

lemma atMost_scanRules : AtMost c w n scanRules ↔
    ∀ l : Label, c ∈ l.conds → ∀ u, u <+: w → l.pattern.Matches u → u.length ≤ n :=
  forall_scanRules (p := fun _ re => ∀ u, u <+: w → re.Matches u → u.length ≤ n)

lemma beyond_scanRules : Beyond c u v scanRules ↔
    ∃ l : Label, c ∈ l.conds ∧ ∃ t, t ≠ [] ∧ t <+: v ∧ l.pattern.Matches (u ++ t) := by
  simp [Beyond, scanRules, Label.mem_all]

/-- A piece is taken by the first rule that matches it, if no rule matches a longer one. -/
lemma munch_label (hc : c ∈ l.conds) (hmatch : l.pattern.Matches u)
    (hfirst : ∀ l' ∈ Label.all.takeWhile (· != l), c ∈ l'.conds → ¬l'.pattern.Matches u)
    (hmost : ∀ l' : Label, c ∈ l'.conds → ∀ u', u' <+: u ++ v → l'.pattern.Matches u' →
      u'.length ≤ u.length) :
    munch c (u ++ v) scanRules = some (u.length, l) := by
  refine munch_eq (r := ⟨l.conds.contains, l.pattern, l⟩) (atMost_scanRules.2 hmost) ?_
  rw [scanRules, List.find?_map, find?_eq_of_takeWhile l.mem_all]
  · rfl
  · simp [ScanRule.takes, hc, (Regex.accepts_iff _ _).2 hmatch]
  · intro l' hl'
    by_cases hc' : c ∈ l'.conds
    · simp [ScanRule.takes, Regex.accepts_eq_false_iff.2 (hfirst l' hl' hc')]
    · simp [ScanRule.takes, hc']

/-- What is known of the piece that is taken. -/
lemma munch_label_cases (h : munch c w scanRules = some (n, l)) :
    n ≤ w.length ∧ c ∈ l.conds ∧ l.pattern.Matches (w.take n) ∧
      ∀ l' : Label, c ∈ l'.conds → ∀ u, u <+: w → l'.pattern.Matches u → u.length ≤ n := by
  obtain ⟨hle, hmost, r, hfind, rfl⟩ := munch_cases h
  obtain ⟨l, -, rfl⟩ := List.mem_map.1 (List.mem_of_find?_eq_some hfind)
  have htakes := List.find?_some hfind
  simp only [ScanRule.takes, Bool.and_eq_true, List.contains_iff_mem, Regex.accepts_iff] at htakes
  exact ⟨hle, htakes.1, htakes.2, atMost_scanRules.1 hmost⟩

lemma not_matches_concat (l' : Label) {b : UInt8}
    (h : munch c (u ++ b :: v) scanRules = some (u.length, l)) (hc : c ∈ l'.conds) :
    ¬l'.pattern.Matches (u ++ [b]) := by
  intro hmatch
  have hle := (munch_label_cases h).2.2.2 l' hc (u ++ [b]) (by simp) hmatch
  rw [List.length_append, List.length_singleton] at hle
  omega

/-- No rule in front of the one that takes the piece matches it. -/
lemma munch_label_first (h : munch c w scanRules = some (n, l)) :
    ∀ l' ∈ Label.all.takeWhile (· != l), c ∈ l'.conds → ¬l'.pattern.Matches (w.take n) := by
  obtain ⟨-, -, r, hfind, rfl⟩ := munch_cases h
  rw [scanRules, List.find?_map, Option.map_eq_some_iff] at hfind
  obtain ⟨l, hfind, rfl⟩ := hfind
  obtain ⟨-, as, bs, hall, has⟩ := List.find?_eq_some_iff_append.1 hfind
  intro l' hl' hc hmatch
  rw [hall, takeWhile_append_cons_of_neg (by simp)] at hl'
  have hnot := has l' ((List.takeWhile_prefix _).subset hl')
  simp [ScanRule.takes, hc, (Regex.accepts_iff _ _).2 hmatch] at hnot

/-- A rule matches every byte. -/
lemma exists_matches_singleton (c : Cond) (a : UInt8) :
    ∃ l : Label, c ∈ l.conds ∧ l.pattern.Matches [a] := by
  by_cases ha : a = 0x0A
  · exact ⟨.newlines, by cases c <;> decide, Regex.matches_plus_cls_iff.2 ⟨by simp, by simp [ha]⟩⟩
  · exact ⟨.unmatched, by cases c <;> decide, Regex.matches_cls_iff.2 ⟨a, by simpa using ha, rfl⟩⟩

lemma munch_pos (h : munch c w scanRules = some (n, l)) (hw : w ≠ []) : 0 < n := by
  obtain ⟨a, w, rfl⟩ := List.exists_cons_of_ne_nil hw
  obtain ⟨-, -, -, hmost⟩ := munch_label_cases h
  obtain ⟨l', hc, hmatch⟩ := exists_matches_singleton c a
  exact hmost l' hc [a] ⟨w, rfl⟩ hmatch

/-- The scanner does not get stuck. -/
lemma exists_munch (c : Cond) (hw : w ≠ []) : ∃ n l, munch c w scanRules = some (n, l) := by
  obtain ⟨a, w, rfl⟩ := List.exists_cons_of_ne_nil hw
  obtain ⟨l', hc, hmatch⟩ := exists_matches_singleton c a
  cases h : munch c (a :: w) scanRules with
  | none =>
      have hnot := forall_scanRules (p := fun _ re => ∀ u, u <+: a :: w → ¬re.Matches u).1
        (not_matches_of_munch_eq_none h) l' hc
      exact absurd hmatch (hnot [a] ⟨w, rfl⟩)
  | some x => exact ⟨x.1, x.2, rfl⟩

lemma eq_cdataClose_of_trail (h : trail l ≠ 0) : l = .cdataClose := by
  cases l <;> first | rfl | exact absurd rfl h

lemma decreases (e : EntityHandler) : (tokenizer e).Decreases steps := by
  intro s w t v h
  have hne : w ≠ [] := by
    rintro rfl
    exact absurd h (by simp [Tokenizer.step_nil])
  obtain ⟨n, b, hmunch, rfl, rfl⟩ := Tokenizer.exists_of_step h
  have hpos := munch_pos hmunch hne
  obtain ⟨hle, hcond, -⟩ := munch_label_cases hmunch
  show 2 * (w.drop (n - trail b)).length + [next s.cond b (w.take (n - trail b))].count .cdata
    < 2 * w.length + [s.cond].count .cdata
  rw [List.length_drop]
  by_cases hb : trail b = 0
  · -- a byte at least is taken
    have hcount : [next s.cond b (w.take (n - trail b))].count .cdata ≤ 1 := List.count_le_length
    omega
  · -- the section is left
    obtain rfl := eq_cdataClose_of_trail hb
    have hcdata : s.cond = .cdata := List.mem_singleton.1 hcond
    have hnext : next s.cond .cdataClose (w.take (n - trail .cdataClose)) = .initial := rfl
    rw [hnext, hcdata, List.count_singleton_self, List.count_eq_zero_of_not_mem (by decide)]
    omega

/-- The scan goes on behind a piece that a rule takes, at its trailing context if it has one. -/
lemma run_append_trail (e : EntityHandler) {s : State} (hne : u ++ v ≠ [])
    (h : munch s.cond (u ++ v) scanRules = some (u.length + trail l, l)) :
    (tokenizer e).run steps s (u ++ v) =
      (tokenizer e).run steps { s.emit e l u with cond := next s.cond l u } v :=
  Tokenizer.run_step (decreases e) (Tokenizer.step_of_munch hne h)

lemma run_append (e : EntityHandler) {s : State} (hu : u ≠ []) (htrail : trail l = 0)
    (h : munch s.cond (u ++ v) scanRules = some (u.length, l)) :
    (tokenizer e).run steps s (u ++ v) =
      (tokenizer e).run steps { s.emit e l u with cond := next s.cond l u } v :=
  run_append_trail e (by simp [hu]) (by rwa [htrail])

/-! ### Relations of states -/

/-- A relation that the parts of the actions keep is kept by the scanner. -/
lemma kept_of_parts {e : EntityHandler} {R : State → State → Prop}
    (hcond : ∀ s s', R s s' → s.cond = s'.cond)
    (hnext : ∀ s s' c, R s s' → R { s with cond := c } { s' with cond := c })
    (hadd : ∀ s s' type text b, R s s' → R (s.addtoken e type text b) (s'.addtoken e type text b))
    (hprocess : ∀ s s', R s s' → R s.process s'.process)
    (hwarn : ∀ s s' warning text, R s s' → R (s.warn warning text) (s'.warn warning text)) :
    (tokenizer e).Kept R := by
  refine ⟨hcond, fun s s' l u h => ?_⟩
  have hemit : R (s.emit e l u) (s'.emit e l u) := by
    cases l with
    | startTag =>
        simp only [State.emit]
        split
        · exact hprocess _ _ (hadd _ _ _ _ _ h)
        · exact hadd _ _ _ _ _ h
    | _ =>
      first
        | exact h
        | exact hadd _ _ _ _ _ h
        | exact hprocess _ _ h
        | exact hwarn _ _ _ _ h
        | exact hprocess _ _ (hadd _ _ _ _ _ h)
        | exact hprocess _ _ (hwarn _ _ _ _ h)
  show R { s.emit e l u with cond := next s.cond l u }
    { s'.emit e l u with cond := next s'.cond l u }
  rw [hcond s s' h]
  exact hnext _ _ _ hemit

end Html

end Mycelium
