import Mycelium.Common.UrlReferences
import Mycelium.Html.Callbacks
import Mycelium.Html.LinkRecords

/-!
# The URLs of the links

`link_add` resolves what an attribute has against the URL of the document.  Whatever the document
is, the records that `html_lex` writes hold absolute URLs in printable characters, which are
complete in the stream and are read by the parser of the crawler.  The only exception are
references with an authority and no host, such as `//`: they are resolved to a URL with an empty
authority, which the parser rejects.
-/

namespace Mycelium

open Lib Html

namespace HtmlLexer

/-! ### Resolving -/

/-- A base URL with neither brackets nor a port, which would go over to the links. -/
structure PlainBase (B : Url) : Prop where
  composed : B.Composed
  scheme : B.scheme ≠ []
  port : B.port = []
  literal : B.hostIpLiteral = false

/-- The text of an absolute URL. -/
def AbsoluteText (t : Str) : Prop := ∃ v, Url.Composed v ∧ v.scheme ≠ [] ∧ v.get = t

variable {B : Url} {s t : HtmlLexer}

lemma PlainBase.of_assign {b : Str} (h : Url.assign b = .ok B) (habs : B.absolute = true)
    (hport : B.port = []) (hliteral : B.hostIpLiteral = false) : PlainBase B := by
  have hacc := Url.accepted_of_assign h
  have hs : B.scheme ≠ [] := by simpa [Url.absolute] using habs
  exact ⟨hacc.composed (hacc.hasAuthority_of_scheme hs), hs, hport, hliteral⟩

/-- What a reference is resolved to. -/
lemma PlainBase.resolve (hB : PlainBase B) {link text : Str} (h : resolve B link = .ok text) :
    AbsoluteText text := by
  rw [HtmlLexer.resolve] at h
  obtain ⟨u, hu, h⟩ := bind_eq_ok.1 h
  obtain ⟨v, hv, h⟩ := bind_eq_ok.1 h
  obtain ⟨w, hw, -, rfl, hscheme, -⟩ := (Url.accepted_of_assign hu).exists_of_normalize hv
  split at h
  · next habs =>
      have hs : w.scheme ≠ [] := by simpa [Url.absolute, Url.normalizePath] using habs
      have ha := hw.hasAuthority_of_scheme hs
      exact ⟨_, (hw.normalizePath ha).composed ha, hs, Except.ok.inj h⟩
  · next habs =>
      have hs : w.scheme = [] := by simpa [Url.absolute, Url.normalizePath] using habs
      obtain ⟨full, hfull, h⟩ := bind_eq_ok.1 h
      obtain ⟨v, hv, hget, hvs⟩ := hB.composed.mergeRef hB.scheme hB.port hB.literal hw hs hfull
      exact ⟨v, hv, hvs ▸ hB.scheme, hget.trans (Except.ok.inj h)⟩

/-! ### The callbacks -/

/-- The links that have been found are absolute. -/
structure Resolved (B : Url) (s : HtmlLexer) : Prop where
  base : s.baseUrl = B
  curlink : s.curlink.url = [] ∨ AbsoluteText s.curlink.url
  lnkout : ∀ l ∈ s.lnkout, AbsoluteText l.url

/-- Steps that leave the URLs alone. -/
lemma Resolved.congr (h : Resolved B s) (hbase : t.baseUrl = s.baseUrl)
    (hcurlink : t.curlink.url = s.curlink.url) (hlnkout : t.lnkout = s.lnkout) : Resolved B t :=
  ⟨hbase.trans h.base, hcurlink ▸ h.curlink, hlnkout ▸ h.lnkout⟩

lemma Resolved.wordBreak (h : Resolved B s) : Resolved B s.wordBreak := by
  rw [HtmlLexer.wordBreak]
  split
  · split
    · exact h.congr rfl rfl rfl
    · rw [textWordBreak]
      split
      · exact h
      · exact h.congr rfl rfl rfl
  · exact h

lemma Resolved.linkAdd (hB : PlainBase B) (h : Resolved B s) (link : Str) :
    Resolved B (s.linkAdd link) := by
  have hempty : B.empty = false := by simp [Url.empty, hB.scheme]
  rw [HtmlLexer.linkAdd, if_neg (by rw [h.base, hempty]; simp)]
  split
  · next url hr => exact ⟨h.base, .inr (hB.resolve (h.base ▸ hr)), h.lnkout⟩
  · exact ⟨h.base, .inl rfl, h.lnkout⟩

lemma Resolved.submitLink (h : Resolved B s) : Resolved B s.submitLink := by
  refine ⟨h.base, .inl rfl, ?_⟩
  rw [HtmlLexer.submitLink]
  simp only
  split
  · exact h.lnkout
  · next hne =>
      rw [List.forall_mem_append]
      refine ⟨h.lnkout, List.forall_mem_singleton.2 (h.curlink.resolve_left fun hnil => hne ?_)⟩
      rw [hnil]
      rfl

lemma Resolved.forTokens {body : HtmlLexer → Token → Option Token → HtmlLexer}
    (hbody : ∀ s i next, Resolved B s → Resolved B (body s i next)) (ts : List Token)
    (h : Resolved B s) : Resolved B (forTokens body s ts) := by
  induction ts generalizing s with
  | nil => exact h
  | cons i rest ih => exact ih (hbody s i rest.head? h)

lemma Resolved.opAToken (hB : PlainBase B) (s : HtmlLexer) (i : Token) (next : Option Token)
    (h : Resolved B s) : Resolved B (opAToken s i next) := by
  rw [HtmlLexer.opAToken.eq_def]
  split
  · split
    · exact (h.linkAdd hB _).congr rfl rfl rfl
    · split
      · exact h.congr rfl rfl rfl
      · exact h
  · exact h

lemma Resolved.opFrameToken (hB : PlainBase B) (s : HtmlLexer) (i : Token) (next : Option Token)
    (h : Resolved B s) : Resolved B (opFrameToken s i next) := by
  rw [HtmlLexer.opFrameToken.eq_def]
  split
  · split
    · exact (h.linkAdd hB _).congr rfl rfl rfl
    · exact h
  · exact h

/-- The callback keeps the links absolute. -/
def KeepsResolved (B : Url) (op : HtmlLexer → List Token → HtmlLexer) : Prop :=
  ∀ s ts, Resolved B s → Resolved B (op s ts)

lemma keepsResolved_opA (hB : PlainBase B) : KeepsResolved B opA := by
  intro s ts h
  rw [opA]
  split
  · exact h.forTokens (Resolved.opAToken hB) ts
  · exact h

lemma keepsResolved_opFrame (hB : PlainBase B) : KeepsResolved B opFrame := by
  intro s ts h
  rw [opFrame]
  split
  · exact (h.forTokens (Resolved.opFrameToken hB) ts).wordBreak
  · exact h

lemma keepsResolved_opAC : KeepsResolved B opAC := by
  intro s ts h
  rw [opAC]
  split
  · exact h.congr rfl rfl rfl
  · split
    · exact h.submitLink.congr rfl rfl rfl
    · exact h

lemma keepsResolved_opFrameC : KeepsResolved B opFrameC := by
  intro s ts h
  refine Resolved.wordBreak ?_
  split
  · exact h.submitLink.congr rfl rfl rfl
  · exact h

lemma Resolved.metaHttpEquiv (hB : PlainBase B) (h : Resolved B s) (httpEquiv : Str)
    (content : Option Str) : Resolved B (s.metaHttpEquiv httpEquiv content) := by
  rw [HtmlLexer.metaHttpEquiv.eq_def]
  split
  · exact h
  · split
    · split
      · exact h.congr rfl rfl rfl
      · exact h
    · split
      · split
        · exact (h.linkAdd hB _).submitLink
        · exact h
      · exact h

lemma keepsResolved_opMeta (hB : PlainBase B) : KeepsResolved B opMeta := by
  intro s ts h
  rw [opMeta]
  cases tagFind ts (lit "http-equiv") with
  | none =>
      dsimp only
      split
      · split
        · exact h.congr rfl rfl rfl
        · exact h
      · exact h
  | some httpEquiv =>
      refine Resolved.metaHttpEquiv hB ?_ httpEquiv _
      split
      · split
        · exact h.congr rfl rfl rfl
        · exact h
      · exact h

/-- The feeds are kept apart from the links. -/
lemma keepsResolved_opLink : KeepsResolved B opLink := by
  intro s ts h
  rw [opLink]
  split
  · split
    · exact h.congr rfl rfl rfl
    · exact h
  · exact h

lemma keepsResolved_of_mem_stagOp (hB : PlainBase B) {x : Str}
    {op : HtmlLexer → List Token → HtmlLexer} (h : (x, op) ∈ stagOp) : KeepsResolved B op := by
  refine stagOp_induction (Q := fun _ op => KeepsResolved B op) ?_ (keepsResolved_opA hB)
    (keepsResolved_opFrame hB) (keepsResolved_opFrame hB) ?_ ?_ keepsResolved_opLink
    (keepsResolved_opMeta hB) ?_ (fun _ _ _ h => h.wordBreak) h
  · exact fun s _ h => Resolved.wordBreak (s := { s with getText := true }) (h.congr rfl rfl rfl)
  all_goals exact fun _ _ h => h.congr rfl rfl rfl

lemma keepsResolved_of_mem_ctagOp {x : Str} {op : HtmlLexer → List Token → HtmlLexer}
    (h : (x, op) ∈ ctagOp) : KeepsResolved B op := by
  refine ctagOp_induction (Q := fun _ op => KeepsResolved B op) ?_ keepsResolved_opAC
    keepsResolved_opFrameC keepsResolved_opFrameC ?_ ?_ (fun _ _ h => h) ?_
    (fun _ _ _ h => h.wordBreak) h
  all_goals exact fun _ _ h => h.congr rfl rfl rfl

lemma Resolved.callback {table : List (Str × (HtmlLexer → List Token → HtmlLexer))}
    (htable : ∀ x op, (x, op) ∈ table → KeepsResolved B op) (h : Resolved B s) (ts : List Token)
    (x : Str) : Resolved B (callback table s ts x) := by
  rcases callback_cases table x with hnone | ⟨op, hop, heq⟩
  · rw [hnone]
    exact h
  · rw [heq]
    exact htable x op hop s ts h

/-- A group of tokens. -/
lemma Resolved.process (hB : PlainBase B) (h : Resolved B s) (ts : List Token) :
    Resolved B (s.process ts) := by
  cases ts with
  | nil => exact h
  | cons cur rest =>
      rw [HtmlLexer.process]
      split
      · exact h.callback (fun _ _ => keepsResolved_of_mem_stagOp hB) _ _
      · exact h.callback (fun _ _ => keepsResolved_of_mem_ctagOp) _ _
      · split
        · split
          · exact h.congr rfl rfl rfl
          · exact h.congr rfl rfl rfl
        · exact h
      · exact h

end HtmlLexer

namespace Html

open HtmlLexer

variable {B : Url}

/-- The scanner keeps the links absolute. -/
lemma kept_resolved (e : EntityHandler) (hB : PlainBase B) :
    (tokenizer e).Kept fun s s' => s = s' ∧ Resolved B s.lexer := by
  refine kept_of_parts ?_ ?_ ?_ ?_ ?_
  · rintro s _ ⟨rfl, -⟩
    rfl
  · rintro s _ c ⟨rfl, h⟩
    exact ⟨rfl, h⟩
  · rintro s _ type text b ⟨rfl, h⟩
    exact ⟨rfl, h⟩
  · rintro s _ ⟨rfl, h⟩
    exact ⟨rfl, h.process hB _⟩
  · rintro s _ warning text ⟨rfl, h⟩
    exact ⟨rfl, h.congr rfl rfl rfl⟩

/-- The links of a document. -/
lemma resolved_yylex (e : EntityHandler) (hB : PlainBase B) (doc : Str) :
    Resolved B (yylex e { baseUrl := B, getText := true } doc) := by
  have hstart : Resolved B { baseUrl := B, getText := true } := ⟨rfl, .inl rfl, by simp⟩
  exact ((kept_resolved e hB).run (decreases e) (s := { lexer := _ }) ⟨rfl, hstart⟩).2

lemma htmlLex_of_base (e : EntityHandler) (hB : PlainBase B) {b : Str} (hb : Url.assign b = .ok B)
    (doc : Str) :
    htmlLex e doc b = .ok (output b (yylex e { baseUrl := B, getText := true } doc)) := by
  have hne : b.isEmpty = false := by
    cases b with
    | nil =>
        obtain rfl : {} = B := Except.ok.inj hb
        exact absurd rfl hB.scheme
    | cons => rfl
  have hconstruct : HtmlLexer.construct (some b) false = .ok { baseUrl := B, getText := true } := by
    simp [HtmlLexer.construct, hb, Url.absolute, hB.scheme, ok_bind]
  rw [htmlLex, hne, if_neg (by simp), hconstruct]
  rfl

/-- The text is absolute, so that its record is read back with the whole of it. -/
lemma printed_of_absoluteText {t : Str} (h : AbsoluteText t) : printed t = t := by
  obtain ⟨v, hv, -, rfl⟩ := h
  rw [printed, List.filter_eq_self]
  intro c hc
  have hp := hv.printable_get c hc
  simp only [Url.printable, Bool.and_eq_true, decide_eq_true_eq] at hp ⊢
  grind

/-- The parser of the crawler reads the text of an absolute URL as that URL, unless the authority is
empty. -/
lemma assign_of_absoluteText {t : Str} (h : AbsoluteText t) :
    (∃ u, Url.assign t = .ok u ∧ u.absolute = true ∧ u.get = t) ∨
      (∃ scheme rest, scheme ≠ lit "file" ∧ t = scheme ++ lit ":///" ++ rest) ∧
        Url.assign t = .error Url.Parts.emptyAuthority := by
  obtain ⟨v, hv, hs, rfl⟩ := h
  rcases hv.accepted.assign_get with ⟨hread, hget, hscheme⟩ | ⟨⟨-, hfile, hhost⟩, herror⟩
  · exact .inl ⟨_, hread, by simp [Url.absolute, hscheme, hs], hget⟩
  · refine .inr ⟨?_, herror⟩
    obtain ⟨rest, hrest⟩ := v.path.get_head.1 hv.slashBegin
    have hlit : lit ":///" = [Byte.colon, Byte.slash, Byte.slash, Byte.slash] := rfl
    refine ⟨v.scheme, rest ++ v.query ++ v.fragment, hfile, ?_⟩
    simp [Url.get, Url.authority, hs, hv.hasAuthority, hhost, hrest, hlit]

/-- Whatever the document is, every record of a link holds an absolute URL in full, which the parser
of the crawler reads as that URL; only a URL with an empty authority is rejected by it. -/
theorem links_absolute (e : EntityHandler) {b : Str} {B : Url} (hb : Url.assign b = .ok B)
    (habs : B.absolute = true) (hport : B.port = []) (hliteral : B.hostIpLiteral = false)
    (doc : Str) :
    ∃ r links, htmlLex e doc b = .ok r ∧ readLinks r.links = some links ∧
      ∀ l ∈ links, (∃ u, Url.assign l.url = .ok u ∧ u.absolute = true ∧ u.get = l.url) ∨
        (∃ scheme rest, scheme ≠ lit "file" ∧ l.url = scheme ++ lit ":///" ++ rest) ∧
          Url.assign l.url = .error Url.Parts.emptyAuthority := by
  have hB := PlainBase.of_assign hb habs hport hliteral
  have hresolved := resolved_yylex e hB doc
  refine ⟨_, _, htmlLex_of_base e hB hb doc, readLinks_printLinks _, ?_⟩
  rw [List.forall_mem_map]
  intro l hl
  have hurl := hresolved.lnkout l hl
  rw [Link.printed, printed_of_absoluteText hurl]
  exact assign_of_absoluteText hurl

theorem links_absolute_page :
    ∃ r links, htmlLex ⟨id, id, id⟩ (lit "<a href=\"../x y\">t</a><a href=\"//\">u</a>")
        (lit "http://a/b/c") = .ok r ∧ readLinks r.links = some links ∧
      ∀ l ∈ links, (∃ u, Url.assign l.url = .ok u ∧ u.absolute = true ∧ u.get = l.url) ∨
        (∃ scheme rest, scheme ≠ lit "file" ∧ l.url = scheme ++ lit ":///" ++ rest) ∧
          Url.assign l.url = .error Url.Parts.emptyAuthority :=
  links_absolute ⟨id, id, id⟩ rfl rfl rfl rfl _

/-- The two links of the page: the second one has lost the host of the base. -/
example : (Url.assign (lit "http://a/b/c")).bind (HtmlLexer.resolve · (lit "../x y")) =
      .ok (lit "http://a/x%20y") ∧
    (Url.assign (lit "http://a/b/c")).bind (HtmlLexer.resolve · (lit "//")) =
      .ok (lit "http:///") := ⟨rfl, rfl⟩

end Html

end Mycelium
