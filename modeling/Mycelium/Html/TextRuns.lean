import Mycelium.Html.Callbacks
import Mycelium.Html.HtmlScanner

/-!
# The text of a document

Documents of character data and of tags without attributes.  The scanner hands every run of data to
the lexer, which writes it out, and a tag adds a line end at most.

The start tag of a script is recognized by as many letters as its name has, so that the names "s",
"sc", "scr", "scri" and "scrip" are taken for it.  What follows such a tag is skipped up to the end
tag of a script.
-/

namespace Mycelium

open Lib

namespace Html

/-! ### Pieces -/

/-- A piece of a document; a tag has white space after its name. -/
inductive Piece where
  | data (text : Str)
  | startTag (name space : Str)
  | endTag (name space : Str)

namespace Piece

def print : Piece → Str
  | data text => text
  | startTag name space => 0x3C :: (name ++ space) ++ [0x3E]
  | endTag name space => 0x3C :: 0x2F :: (name ++ space) ++ [0x3E]

def text : Piece → Str
  | data text => text
  | startTag _ _ | endTag _ _ => []

/-- The tags that turn the text off or on, or make it the text of a link. -/
def special : List Str :=
  ["script", "style", "title", "body", "a", "frame", "iframe"].map lit

/-- A name and the white space after it. -/
structure IsTag (n space : Str) : Prop where
  name : Html.name.Matches n
  space : White space
  plain : n.map toLower ∉ special

def WellFormed : Piece → Prop
  | data text => text ≠ [] ∧ ∀ c ∈ text, c ≠ 0x3C ∧ c ≠ 0x26 ∧ c ≠ 0x5D
  | startTag name space | endTag name space => IsTag name space

/-- A start tag that is taken for the one of a script. -/
def entersScript : Piece → Bool
  | startTag name space => isScript (stripBlanks (name ++ space))
  | data _ | endTag _ _ => false

end Piece

/-! ### Data -/

variable {e : EntityHandler} {a : UInt8} {d n sp u v : Str} {s : State}

/-- The text is at its end or at the start of a tag. -/
def AtTag (v : Str) : Prop := ∀ c ∈ v.head?, c = 0x3C

lemma length_le_of_atTag (hv : AtTag v) (hu : u <+: d ++ v) (h : 0x3C ∉ u) :
    u.length ≤ d.length := by
  cases v with
  | nil => simpa using hu.length_le
  | cons c v =>
      obtain rfl := hv c rfl
      exact length_le_of_isPrefix hu h

/-- A piece of data ends in front of a tag, or is one byte long. -/
lemma length_le_of_dataRe (hd : d ≠ []) (hv : AtTag v) (hu : u <+: d ++ v) (h : dataRe.Matches u) :
    u.length ≤ d.length := by
  rcases matches_dataRe_iff.1 h with h | h
  · exact length_le_of_atTag hv hu h
  · rw [h]
    exact List.length_pos_iff.2 hd

/-- The rules of all conditions match no more than a run of data. -/
lemma length_le_of_anywhere (hd : d ≠ []) (hv : AtTag v) (hu : u <+: d ++ v)
    (h : Label.newlines.pattern.Matches u ∨ Label.unmatched.pattern.Matches u) :
    u.length ≤ d.length := by
  rcases h with h | h
  · exact length_le_of_atTag hv hu (h.notMem (by decide))
  · obtain ⟨c, -, rfl⟩ := Regex.matches_cls_iff.1 h
    exact List.length_pos_iff.2 hd

/-- Only data can begin with a byte that opens nothing. -/
lemma first_initial (ha : a ≠ 0x3C) (ha' : a ≠ 0x5D) (l : Label) (hl : .initial ∈ l.conds) :
    l = .data ∨ l = .newlines ∨ l = .unmatched ∨ l.pattern.first a = false := by
  have hcdata : (toLower a == toLower 0x3C) = false := by
    have hlt : toLower 0x3C = 0x3C := rfl
    rw [beq_eq_false_iff_ne, hlt, toLower]
    grind
  cases l with
  | data => exact Or.inl rfl
  | newlines => exact Or.inr (Or.inl rfl)
  | unmatched => exact Or.inr (Or.inr (Or.inl rfl))
  | _ =>
    refine Or.inr (Or.inr (Or.inr ?_))
    first
      | exact absurd hl (by decide)
      | simp [Label.pattern, Regex.first, Regex.cat, delim, anyCase, Regex.chr, Regex.nullable,
          etago, mdo, msc, pio, stago, cdatao, ha, ha', hcdata]

lemma munch_data (hd : d ≠ []) (h : ∀ c ∈ d, c ≠ 0x3C ∧ c ≠ 0x5D) (hv : AtTag v) :
    munch .initial (d ++ v) scanRules = some (d.length, .data) := by
  obtain ⟨a, d', rfl⟩ := List.exists_cons_of_ne_nil hd
  obtain ⟨ha, ha'⟩ := h a List.mem_cons_self
  refine munch_label (by decide) (matches_dataRe_iff.2 (Or.inl fun hmem => (h _ hmem).1 rfl)) ?_ ?_
  · intro l hl hc
    rcases first_initial ha ha' l hc with rfl | rfl | rfl | hfirst
    · exact absurd hl (by decide)
    · exact absurd hl (by decide)
    · exact absurd hl (by decide)
    · exact Regex.not_matches_of_first (u := []) hfirst
  · intro l hc u hu hmatch
    rcases first_initial ha ha' l hc with rfl | rfl | rfl | hfirst
    · exact length_le_of_dataRe hd hv hu hmatch
    · exact length_le_of_anywhere hd hv hu (Or.inl hmatch)
    · exact length_le_of_anywhere hd hv hu (Or.inr hmatch)
    · exact (Regex.length_le_of_first (u := []) hu hmatch hfirst).trans (Nat.zero_le _)

/-! ### Tags -/

/-- The bytes that decide what a `<` begins. -/
lemma ne_of_isNameStart_markup (ha : isNameStart a = true) :
    a ≠ 0x2F ∧ a ≠ 0x21 ∧ a ≠ 0x3F ∧ a ≠ 0x3E :=
  ⟨ne_of_isNameStart ha rfl, ne_of_isNameStart ha rfl, ne_of_isNameStart ha rfl,
    ne_of_isNameStart ha rfl⟩

/-- The rules in front of a tag: what can hold the end of a tag cannot begin with `<` and the first
letter of a name, nor with `</` and the first letter of a name. -/
lemma first_tag (ha : isNameStart a = true) (l : Label) (hl : .initial ∈ l.conds) :
    l.pattern.AllCls (fun p => p 0x3E = false) ∨
      (l.pattern.derivs [0x3C]).first a = false ∧
      (l.pattern.derivs [0x3C, 0x2F]).first a = false := by
  obtain ⟨hslash, hbang, hpi, hgt⟩ := ne_of_isNameStart_markup ha
  cases l with
  | emptyEndTag | emptyComment | markedSectionEnd | pi | emptyStartTag | data | unmatched =>
      refine Or.inr ⟨?_, ?_⟩ <;>
        simp [Label.pattern, Regex.first, Regex.derivs, Regex.deriv, Regex.cat, delim, Regex.chr,
          Regex.nullable, Regex.mkSeq, Regex.mkAlt, dataRe, dot, etago, tagc, mdo, mdc, msc, pio,
          pic, stago, hslash, hbang, hpi, hgt]
  | _ =>
      first
        | exact absurd hl (by decide)
        | exact Or.inl (by decide)

/-- In front of the rule for start tags only rules stand that need another byte after the `<`. -/
lemma first_before_startTag (ha : isNameStart a = true) (l : Label)
    (hl : l ∈ Label.all.takeWhile (· != .startTag)) (hc : .initial ∈ l.conds) :
    (l.pattern.derivs [0x3C]).first a = false := by
  obtain ⟨hslash, hbang, hpi, -⟩ := ne_of_isNameStart_markup ha
  cases l with
  | endTag | emptyEndTag | markupDecl | emptyComment | commentDecl | markedSection
  | markedSectionEnd | pi =>
      simp [Label.pattern, Regex.first, Regex.derivs, Regex.deriv, Regex.cat, delim, Regex.chr,
        Regex.nullable, Regex.mkSeq, etago, mdo, msc, pio, hslash, hbang, hpi]
  | scriptEnd => exact absurd hc (by decide)
  | _ => exact absurd hl (by decide)

/-- A rule that cannot begin with a tag, or cannot hold the end of one, matches no more than the
tag. -/
lemma length_le_of_tagRule {o t : Str} {l : Label}
    (h : l.pattern.AllCls (fun p => p 0x3E = false) ∨ (l.pattern.derivs o).first a = false)
    (hu : u <+: (o ++ (a :: t ++ sp)) ++ 0x3E :: v) (hmatch : l.pattern.Matches u) :
    u.length ≤ (o ++ (a :: t ++ sp)).length := by
  rcases h with hcls | hfirst
  · exact length_le_of_isPrefix hu (hmatch.notMem hcls)
  · have hopening : u <+: o ++ a :: (t ++ sp ++ 0x3E :: v) := by simpa using hu
    have hle := Regex.length_le_of_first hopening hmatch hfirst
    rw [List.length_append]
    exact hle.trans (Nat.le_add_right _ _)

lemma munch_startTag (hn : name.Matches n) (hsp : White sp) :
    munch .initial ((0x3C :: (n ++ sp)) ++ 0x3E :: v) scanRules =
      some ((0x3C :: (n ++ sp)).length, .startTag) := by
  have hmatch : Label.startTag.pattern.Matches ([0x3C] ++ (n ++ sp)) :=
    .seq (matches_delim_iff.2 rfl) (.seq hn (matches_ws_iff.2 hsp))
  obtain ⟨a, t, ha, -, rfl⟩ := matches_name_iff.1 hn
  refine munch_label (by decide) hmatch ?_ ?_
  · intro l hl hc
    exact Regex.not_matches_of_first (u := [0x3C]) (first_before_startTag ha l hl hc)
  · intro l hc u hu hmatch
    exact length_le_of_tagRule (o := [0x3C]) ((first_tag ha l hc).imp_right And.left) hu hmatch

lemma munch_endTag (hn : name.Matches n) (hsp : White sp) :
    munch .initial ((0x3C :: 0x2F :: (n ++ sp)) ++ 0x3E :: v) scanRules =
      some ((0x3C :: 0x2F :: (n ++ sp)).length, .endTag) := by
  have hmatch : Label.endTag.pattern.Matches ([0x3C, 0x2F] ++ (n ++ sp)) :=
    .seq (matches_delim_iff.2 rfl) (.seq hn (matches_ws_iff.2 hsp))
  obtain ⟨a, t, ha, -, rfl⟩ := matches_name_iff.1 hn
  refine munch_label (by decide) hmatch ?_ ?_
  · intro l hl
    exact absurd hl (by simp [Label.all])
  · intro l hc u hu hmatch
    exact length_le_of_tagRule (o := [0x3C, 0x2F]) ((first_tag ha l hc).imp_right And.right) hu
      hmatch

/-- Nothing follows a `>` inside a tag. -/
lemma first_tagClose {c : Cond} (hc : c = .attr ∨ c = .tag) (l : Label) (hl : c ∈ l.conds)
    (b : UInt8) : (l.pattern.derivs [0x3E]).first b = false := by
  have hmem : .attr ∈ l.conds ∨ .tag ∈ l.conds := by
    rcases hc with rfl | rfl
    · exact Or.inl hl
    · exact Or.inr hl
  cases l with
  | attrname | name | tagClose | netClose | unclosed | badCharacter | newlines | unmatched => rfl
  | _ => exact absurd hmem (by decide)

lemma munch_tagClose {c : Cond} (hc : c = .attr ∨ c = .tag) (v : Str) :
    munch c ([0x3E] ++ v) scanRules = some (1, .tagClose) := by
  refine munch_label (by rcases hc with rfl | rfl <;> decide) (matches_delim_iff.2 rfl) ?_ ?_
  · intro l hl hl'
    cases l with
    | attrname | name => exact Regex.not_matches_of_first (u := []) rfl
    | _ =>
        first
          | exact absurd hl (by decide)
          | exact absurd hl' (by rcases hc with rfl | rfl <;> decide)
  · intro l hl u hu hmatch
    cases v with
    | nil => simpa using hu.length_le
    | cons b v => exact Regex.length_le_of_first (u := [0x3E]) hu hmatch (first_tagClose hc l hl b)

/-! ### Steps of the run -/

/-- The content of the token of a tag. -/
def tagName (n sp : Str) : Str := (stripBlanks (n ++ sp)).map toLower

lemma amp_notMem_tag (hn : name.Matches n) (hsp : White sp) : 0x26 ∉ stripBlanks (n ++ sp) := by
  intro hmem
  have hmem' : 0x26 ∈ n ++ sp := (List.rdropWhile_prefix _ _).subset hmem
  rcases List.mem_append.1 hmem' with h | h
  · exact absurd (isNameChar_of_name hn _ h) (by decide)
  · exact absurd (hsp _ h) (by decide)

lemma run_data (e : EntityHandler) (L : HtmlLexer) (hd : d ≠ [])
    (h : ∀ c ∈ d, c ≠ 0x3C ∧ c ≠ 0x26 ∧ c ≠ 0x5D) (hv : AtTag v) :
    (tokenizer e).run steps { lexer := L } (d ++ v) =
      (tokenizer e).run steps { lexer := L.process [⟨.data, d⟩] } v := by
  have hmunch := munch_data hd (fun c hc => ⟨(h c hc).1, (h c hc).2.2⟩) hv
  have hamp : e.replaceAllEntities d = d :=
    e.replaceAllEntities_of_notMem fun hmem => (h _ hmem).2.1 rfl
  rw [run_append e (s := { lexer := L }) hd rfl hmunch]
  simp [State.emit, State.addtoken, State.process, next, hamp]

lemma run_tagClose (e : EntityHandler) {c : Cond} (hc : c = .attr ∨ c = .tag) (ts : List Token)
    (L : HtmlLexer) (v : Str) :
    (tokenizer e).run steps ⟨c, ts, L⟩ ([0x3E] ++ v) =
      (tokenizer e).run steps { lexer := L.process (ts ++ [⟨.tagc, [0x3E]⟩]) } v := by
  have hamp : e.replaceAllEntities [0x3E] = [0x3E] := e.replaceAllEntities_of_notMem (by decide)
  rw [run_append e (s := ⟨c, ts, L⟩) (by simp) rfl (munch_tagClose hc v)]
  simp [State.emit, State.addtoken, State.process, next, hamp]

lemma run_startTag (e : EntityHandler) (L : HtmlLexer) (hn : name.Matches n) (hsp : White sp)
    (v : Str) :
    (tokenizer e).run steps { lexer := L } (0x3C :: (n ++ sp) ++ 0x3E :: v) =
      if isScript (stripBlanks (n ++ sp)) then
        (tokenizer e).run steps ⟨.script, [], L.process [⟨.start, tagName n sp⟩]⟩ (0x3E :: v)
      else
        (tokenizer e).run steps
          { lexer := L.process [⟨.start, tagName n sp⟩, ⟨.tagc, [0x3E]⟩] } v := by
  have hamp := e.replaceAllEntities_of_notMem (amp_notMem_tag hn hsp)
  rw [run_append e (s := { lexer := L }) (by simp) rfl (munch_startTag hn hsp)]
  cases hscript : isScript (stripBlanks (n ++ sp)) with
  | true =>
      simp [State.emit, State.addtoken, State.process, next, hamp, hscript, tagName]
  | false =>
      have hclose := run_tagClose e (Or.inl rfl) [⟨.start, tagName n sp⟩] L v
      simpa [State.emit, State.addtoken, next, hamp, hscript, tagName] using hclose

lemma run_endTag (e : EntityHandler) (L : HtmlLexer) (hn : name.Matches n) (hsp : White sp)
    (v : Str) :
    (tokenizer e).run steps { lexer := L } (0x3C :: 0x2F :: (n ++ sp) ++ 0x3E :: v) =
      (tokenizer e).run steps { lexer := L.process [⟨.end_, tagName n sp⟩, ⟨.tagc, [0x3E]⟩] }
        v := by
  have hamp := e.replaceAllEntities_of_notMem (amp_notMem_tag hn hsp)
  rw [run_append e (s := { lexer := L }) (by simp) rfl (munch_endTag hn hsp)]
  have hclose := run_tagClose e (Or.inr rfl) [⟨.end_, tagName n sp⟩] L v
  simpa [State.emit, State.addtoken, next, hamp, tagName] using hclose

/-! ### Inside a script -/

lemma munch_scriptData (hd : d ≠ []) (h : 0x3C ∉ d) (hv : AtTag v) :
    munch .script (d ++ v) scanRules = some (d.length, .scriptData) := by
  have hdata := matches_dataRe_iff.2 (Or.inl h)
  obtain ⟨a, d', rfl⟩ := List.exists_cons_of_ne_nil hd
  have ha : a ≠ 0x3C := by
    rintro rfl
    exact h List.mem_cons_self
  have hend : Label.scriptEnd.pattern.first a = false := by
    simp [Label.pattern, Regex.first, Regex.cat, delim, Regex.chr, Regex.nullable, etago, ha]
  refine munch_label (by decide) hdata ?_ ?_
  · intro l hl hc
    cases l with
    | scriptEnd => exact Regex.not_matches_of_first (u := []) hend
    | _ => first | exact absurd hl (by decide) | exact absurd hc (by decide)
  · intro l hc u hu hmatch
    cases l with
    | scriptEnd => exact (Regex.length_le_of_first (u := []) hu hmatch hend).trans (Nat.zero_le _)
    | scriptData => exact length_le_of_dataRe hd hv hu hmatch
    | newlines => exact length_le_of_anywhere hd hv hu (Or.inl hmatch)
    | unmatched => exact length_le_of_anywhere hd hv hu (Or.inr hmatch)
    | _ => exact absurd hc (by decide)

/-- Text without a `<` is skipped inside a script. -/
lemma run_script_skip (e : EntityHandler) (hs : s.cond = .script) (h : 0x3C ∉ u) (v : Str) :
    (tokenizer e).run steps s (u ++ v) = (tokenizer e).run steps s v := by
  -- both texts go on at the first `<` of `v`
  have hdrop : AtTag (v.dropWhile (· != 0x3C)) := fun c hc => by simpa using head?_dropWhile hc
  have hstep : ∀ d, 0x3C ∉ d → (tokenizer e).run steps s (d ++ v.dropWhile (· != 0x3C)) =
      (tokenizer e).run steps s (v.dropWhile (· != 0x3C)) := by
    intro d hd
    by_cases hnil : d = []
    · rw [hnil, List.nil_append]
    · rw [run_append e hnil rfl (by rw [hs]; exact munch_scriptData hnil hd hdrop)]
      rfl
  have hv := hstep _ (notMem_takeWhile_bne (s := v) (d := 0x3C))
  rw [List.takeWhile_append_dropWhile] at hv
  rw [hv, ← hstep (u ++ v.takeWhile (· != 0x3C)), List.append_assoc,
    List.takeWhile_append_dropWhile]
  rw [List.mem_append, not_or]
  exact ⟨h, notMem_takeWhile_bne⟩

/-- A `<` is skipped inside a script if no end tag of a script begins there. -/
lemma run_script_lt (e : EntityHandler) (hs : s.cond = .script)
    (h : ∀ u, u <+: 0x3C :: v → ¬Label.scriptEnd.pattern.Matches u) :
    (tokenizer e).run steps s (0x3C :: v) = (tokenizer e).run steps s v := by
  have hmunch : munch .script ([0x3C] ++ v) scanRules = some (1, .scriptData) := by
    refine munch_label (by decide) (.altRight (.cls rfl)) ?_ ?_
    · intro l hl hc
      cases l with
      | scriptEnd => exact h [0x3C] ⟨v, rfl⟩
      | _ => first | exact absurd hl (by decide) | exact absurd hc (by decide)
    · intro l hc u hu hmatch
      cases l with
      | scriptEnd => exact absurd hmatch (h u hu)
      | scriptData | newlines | unmatched =>
          cases v with
          | nil => simpa using hu.length_le
          | cons b v => exact Regex.length_le_of_first (u := [0x3C]) hu hmatch rfl
      | _ => exact absurd hc (by decide)
  rw [← List.singleton_append, run_append e (by simp) rfl (by rw [hs]; exact hmunch)]
  rfl

/-- Only the name of a script makes the end tag of one. -/
lemma not_scriptEnd_endTag (h : Piece.IsTag n sp)
    (hu : u <+: 0x3C :: 0x2F :: (n ++ sp) ++ 0x3E :: v) :
    ¬Label.scriptEnd.pattern.Matches u := by
  intro hmatch
  obtain ⟨w₁, k, w₂, hw₁, hk, hw₂, rfl⟩ := matches_scriptEnd hmatch
  have hname := isNameChar_of_name h.name
  have hkname := isNameChar_of_script hk
  have hwhite : ∀ sp, White sp → ∀ c ∈ sp.head?, isNameChar c = false := fun sp hsp c hc =>
    isNameChar_of_isWhite (hsp c (List.mem_of_mem_head? hc))
  have hgt : ∀ x y, (∀ c ∈ x, isNameChar c = true) → White y → 0x3E ∉ x ++ y := by
    intro x y hx hy hmem
    rcases List.mem_append.1 hmem with hmem | hmem
    · exact absurd (hx _ hmem) (by decide)
    · exact absurd (hy _ hmem) (by decide)
  -- the two texts agree up to the `>`
  obtain ⟨t, ht⟩ := hu
  have heq : (w₁ ++ (k ++ w₂)) ++ 0x3E :: t = (n ++ sp) ++ 0x3E :: v := by simpa using ht
  have hcut : w₁ ++ (k ++ w₂) = n ++ sp := by
    refine (append_cons_inj ?_ (hgt n sp hname h.space) heq).1
    rw [List.mem_append, not_or]
    exact ⟨fun hmem => absurd (hw₁ _ hmem) (by decide), hgt k w₂ hkname hw₂⟩
  -- and the name begins at once
  obtain rfl : w₁ = [] := by
    obtain ⟨a, m, ha, -, rfl⟩ := matches_name_iff.1 h.name
    cases w₁ with
    | nil => rfl
    | cons c w₁ =>
        have hc := isNameChar_of_isWhite (hw₁ c List.mem_cons_self)
        rw [(List.cons.inj hcut).1, isNameChar_of_isNameStart ha] at hc
        exact absurd hc (by simp)
  have hkn : k = n := by
    have htake := congrArg (List.takeWhile isNameChar) hcut
    rwa [List.nil_append, takeWhile_append_of_stop hkname (hwhite w₂ hw₂),
      takeWhile_append_of_stop hname (hwhite sp h.space)] at htake
  exact h.plain (by rw [← hkn, hk]; decide)

lemma not_scriptEnd_startTag (hn : name.Matches n) (hu : u <+: 0x3C :: (n ++ v)) :
    ¬Label.scriptEnd.pattern.Matches u := by
  intro hmatch
  obtain ⟨w₁, k, w₂, -, -, -, rfl⟩ := matches_scriptEnd hmatch
  obtain ⟨a, t, ha, -, rfl⟩ := matches_name_iff.1 hn
  obtain ⟨y, hy⟩ := hu
  simp only [List.cons_append, List.cons.injEq, true_and] at hy
  exact absurd hy.1.symm (ne_of_isNameStart ha (by decide))

/-- Nothing of a document without scripts is read inside a script. -/
lemma run_script_pieces (e : EntityHandler) (hs : s.cond = .script) {pieces : List Piece}
    (h : ∀ p ∈ pieces, p.WellFormed) :
    (tokenizer e).run steps s (pieces.flatMap Piece.print) = s := by
  induction pieces with
  | nil => exact Tokenizer.run_nil _ _ _
  | cons p pieces ih =>
      rw [List.forall_mem_cons] at h
      have hrest := ih h.2
      rw [List.flatMap_cons]
      cases p with
      | data text =>
          rw [Piece.print, run_script_skip e hs fun hmem => (h.1.2 _ hmem).1 rfl, hrest]
      | startTag n sp =>
          have htag : Piece.IsTag n sp := h.1
          have hskip : 0x3C ∉ n ++ sp ++ [0x3E] := by
            simp only [List.mem_append, not_or, List.mem_singleton]
            exact ⟨⟨fun hmem => absurd (isNameChar_of_name htag.name _ hmem) (by decide),
              fun hmem => absurd (htag.space _ hmem) (by decide)⟩, by decide⟩
          have hlt := run_script_lt e (v := (n ++ sp ++ [0x3E]) ++ pieces.flatMap Piece.print) hs
            fun u hu => not_scriptEnd_startTag htag.name (by simpa using hu)
          rw [Piece.print, List.cons_append, List.cons_append, hlt, run_script_skip e hs hskip,
            hrest]
      | endTag n sp =>
          have htag : Piece.IsTag n sp := h.1
          have hskip : 0x3C ∉ 0x2F :: (n ++ sp) ++ [0x3E] := by
            simp only [List.mem_append, List.mem_cons, not_or, List.not_mem_nil, not_false_eq_true,
              and_true]
            exact ⟨⟨by decide, fun hmem => absurd (isNameChar_of_name htag.name _ hmem) (by decide),
              fun hmem => absurd (htag.space _ hmem) (by decide)⟩, by decide⟩
          have hlt := run_script_lt e
            (v := (0x2F :: (n ++ sp) ++ [0x3E]) ++ pieces.flatMap Piece.print) hs
            fun u hu => not_scriptEnd_endTag htag (by simpa using hu)
          rw [Piece.print, List.cons_append, List.cons_append, hlt, run_script_skip e hs hskip,
            hrest]

/-! ### What the lexer writes -/

/-- A text without its line ends. -/
def unbroken (s : Str) : Str := s.filter (· != 0x0A)

lemma unbroken_append (s t : Str) : unbroken (s ++ t) = unbroken s ++ unbroken t :=
  List.filter_append ..

/-- The text is taken, and is not the text of a link. -/
def Plain (L : HtmlLexer) : Prop := L.getText = true ∧ L.inlink = false

lemma process_data {L : HtmlLexer} (hL : Plain L) (d : Str) :
    Plain (L.process [⟨.data, d⟩]) ∧ (L.process [⟨.data, d⟩]).txtout = L.txtout ++ d := by
  simp [HtmlLexer.process, hL.1, hL.2, HtmlLexer.textAdd, Plain]

lemma wordBreak_plain {L : HtmlLexer} (hL : Plain L) :
    Plain L.wordBreak ∧ unbroken L.wordBreak.txtout = unbroken L.txtout := by
  rw [HtmlLexer.wordBreak, hL.1, if_pos rfl, hL.2, if_neg Bool.false_ne_true,
    HtmlLexer.textWordBreak]
  split
  · exact ⟨hL, rfl⟩
  · refine ⟨hL, ?_⟩
    have hnl : unbroken (lit "\n") = [] := by decide
    simp [unbroken_append, hnl]

/-- The callbacks of the other tags, on a tag without attributes, do nothing or break a word. -/
lemma callback_plain {table : List (Str × (HtmlLexer → List Token → HtmlLexer))}
    (htable : table = HtmlLexer.stagOp ∨ table = HtmlLexer.ctagOp) {x : Str}
    (hx : x ∉ Piece.special) {ts : List Token} (hts : HtmlLexer.tagMap ts = []) (L : HtmlLexer) :
    HtmlLexer.callback table L ts x = L ∨ HtmlLexer.callback table L ts x = L.wordBreak := by
  have hfind : ∀ k, HtmlLexer.tagFind ts k = none := by simp [HtmlLexer.tagFind, hts]
  have hmeta : HtmlLexer.opMeta L ts = L := by simp [HtmlLexer.opMeta, hfind]
  have hlink : HtmlLexer.opLink L ts = L := by simp [HtmlLexer.opLink, hfind]
  have hspecial : ∀ {y : Str} {M : HtmlLexer}, y ∈ Piece.special → y ∉ Piece.special →
      M = L ∨ M = L.wordBreak := fun hmem hnot => absurd hmem hnot
  have hops : ∀ op, (x, op) ∈ table → op L ts = L ∨ op L ts = L.wordBreak := by
    intro op hop
    rcases htable with rfl | rfl
    · refine HtmlLexer.stagOp_induction
        (Q := fun x op => x ∉ Piece.special → op L ts = L ∨ op L ts = L.wordBreak)
        ?_ ?_ ?_ ?_ ?_ ?_ ?_ ?_ ?_ ?_ hop hx
      all_goals first
        | exact hspecial (by decide)
        | exact fun _ => Or.inl hlink
        | exact fun _ => Or.inl hmeta
        | exact fun _ _ => Or.inr rfl
    · refine HtmlLexer.ctagOp_induction
        (Q := fun x op => x ∉ Piece.special → op L ts = L ∨ op L ts = L.wordBreak)
        ?_ ?_ ?_ ?_ ?_ ?_ ?_ ?_ ?_ hop hx
      all_goals first
        | exact hspecial (by decide)
        | exact fun _ => Or.inl rfl
        | exact fun _ _ => Or.inr rfl
  rcases HtmlLexer.callback_cases table x with hnone | ⟨op, hop, hcall⟩
  · exact Or.inl (hnone L ts)
  · rw [hcall]
    exact hops op hop

/-- A tag adds a line end at most. -/
lemma process_tag {L : HtmlLexer} (hL : Plain L) {type : SgmlTok}
    (htype : type = .start ∨ type = .end_) {x : Str} (hx : x ∉ Piece.special) (ts : List Token)
    (hts : HtmlLexer.tagMap (⟨type, x⟩ :: ts) = []) :
    Plain (L.process (⟨type, x⟩ :: ts)) ∧
      unbroken (L.process (⟨type, x⟩ :: ts)).txtout = unbroken L.txtout := by
  have hcases : L.process (⟨type, x⟩ :: ts) = L ∨ L.process (⟨type, x⟩ :: ts) = L.wordBreak := by
    rcases htype with rfl | rfl
    · exact callback_plain (Or.inl rfl) hx hts L
    · exact callback_plain (Or.inr rfl) hx hts L
  rcases hcases with h | h
  · rw [h]
    exact ⟨hL, rfl⟩
  · rw [h]
    exact wordBreak_plain hL

lemma tagName_notMem (h : Piece.IsTag n sp) : tagName n sp ∉ Piece.special := by
  have hname :=
    rdropWhile_of_isNameChar (fun _ => isNameChar_of_isStripped) (isNameChar_of_name h.name)
  rw [tagName, stripBlanks, rdropWhile_append_of_self hname, List.map_append]
  have hsub := (List.rdropWhile_prefix isStripped sp).subset
  cases hleft : sp.rdropWhile isStripped with
  | nil => simpa using h.plain
  | cons c sp' =>
      -- no name of the list holds white space
      have hletters : ∀ k ∈ Piece.special, ∀ c ∈ k, isWhite c = false := by
        have hall : Piece.special.all (fun k => k.all (!isWhite ·)) = true := by decide
        simpa [List.all_eq_true] using hall
      have hc : isWhite c = true := h.space c (hsub (by simp [hleft]))
      have hlower : toLower c = c := by
        rcases isWhite_iff.1 hc with rfl | rfl | rfl | rfl <;> rfl
      intro hmem
      have := hletters _ hmem (toLower c) (by simp)
      rw [hlower, hc] at this
      exact absurd this (by simp)

/-! ### Whole documents -/

/-- The text in front of the first start tag that is taken for the one of a script. -/
def keptText (pieces : List Piece) : Str :=
  (pieces.takeWhile (!·.entersScript)).flatMap Piece.text

/-- The text behind it. -/
def skippedText (pieces : List Piece) : Str :=
  (pieces.dropWhile (!·.entersScript)).flatMap Piece.text

lemma keptText_append_skippedText (pieces : List Piece) :
    keptText pieces ++ skippedText pieces = pieces.flatMap Piece.text := by
  rw [keptText, skippedText, ← List.flatMap_append, List.takeWhile_append_dropWhile]

lemma keptText_cons (p : Piece) (pieces : List Piece) :
    keptText (p :: pieces) = if p.entersScript then [] else p.text ++ keptText pieces := by
  cases h : p.entersScript <;> simp [keptText, h]

/-- Data in front of a tag is written. -/
lemma exists_run_data (e : EntityHandler) {L : HtmlLexer} (hL : Plain L)
    (hd : ∀ c ∈ d, c ≠ 0x3C ∧ c ≠ 0x26 ∧ c ≠ 0x5D) (hv : AtTag v) :
    ∃ L', Plain L' ∧ L'.txtout = L.txtout ++ d ∧
      (tokenizer e).run steps { lexer := L } (d ++ v)
        = (tokenizer e).run steps { lexer := L' } v := by
  by_cases hnil : d = []
  · exact ⟨L, hL, by simp [hnil], by rw [hnil, List.nil_append]⟩
  · exact ⟨_, (process_data hL d).1, (process_data hL d).2, run_data e L hnil hd hv⟩

/-- The run over a document, from data `d` that was not yet scanned: the data next to it makes one
token with it. -/
lemma unbroken_run (e : EntityHandler) {pieces : List Piece} (h : ∀ p ∈ pieces, p.WellFormed)
    {L : HtmlLexer} (hL : Plain L) (hd : ∀ c ∈ d, c ≠ 0x3C ∧ c ≠ 0x26 ∧ c ≠ 0x5D) :
    unbroken (yylex e L (d ++ pieces.flatMap Piece.print)).txtout =
      unbroken L.txtout ++ unbroken (d ++ keptText pieces) := by
  induction pieces generalizing L d with
  | nil =>
      obtain ⟨L', -, htxt, hrun⟩ := exists_run_data e (v := []) hL hd (by simp [AtTag])
      rw [yylex, List.flatMap_nil, hrun, Tokenizer.run_nil, htxt]
      simp [keptText, unbroken_append]
  | cons p pieces ih =>
      rw [List.forall_mem_cons] at h
      -- the data is scanned when a tag follows it
      have hscan : AtTag p.print → ∃ L', Plain L' ∧
          unbroken L'.txtout = unbroken L.txtout ++ unbroken d ∧
          yylex e L (d ++ (p :: pieces).flatMap Piece.print) =
            yylex e L' (p.print ++ pieces.flatMap Piece.print) := by
        intro htag
        have hv : AtTag (p.print ++ pieces.flatMap Piece.print) := by
          intro c hc
          refine htag c ?_
          cases p <;> simp_all [Piece.print, Piece.WellFormed]
        obtain ⟨L', hL', htxt, hrun⟩ := exists_run_data e hL hd hv
        exact ⟨L', hL', by rw [htxt, unbroken_append],
          congrArg State.lexer (by rw [List.flatMap_cons, hrun])⟩
      cases p with
      | data text =>
          have hdata : ∀ c ∈ d ++ text, c ≠ 0x3C ∧ c ≠ 0x26 ∧ c ≠ 0x5D := by
            intro c hc
            rcases List.mem_append.1 hc with hc | hc
            · exact hd c hc
            · exact h.1.2 c hc
          have hrest := ih h.2 hL hdata
          simpa [Piece.print, keptText_cons, Piece.entersScript, Piece.text] using hrest
      | startTag n sp =>
          have htag : Piece.IsTag n sp := h.1
          obtain ⟨L', hL', htxt, hrun⟩ := hscan (by simp [AtTag, Piece.print])
          have hprocess := process_tag hL' (Or.inl rfl) (tagName_notMem htag)
          have hstart := run_startTag e L' htag.name htag.space (pieces.flatMap Piece.print)
          rw [hrun, yylex, Piece.print, List.append_assoc, List.singleton_append, hstart,
            keptText_cons, Piece.entersScript]
          split
          · -- nothing is written from here on
            have hskip := run_script_skip e (u := [0x3E]) (v := pieces.flatMap Piece.print)
              (s := ⟨.script, [], L'.process [⟨.start, tagName n sp⟩]⟩) rfl (by decide)
            rw [List.singleton_append] at hskip
            rw [hskip, run_script_pieces e rfl h.2, List.append_nil, ← htxt]
            exact (hprocess [] rfl).2
          · obtain ⟨hplain, hkeep⟩ := hprocess [⟨.tagc, [0x3E]⟩] rfl
            have hrest := ih h.2 (d := []) hplain (by simp)
            rw [hkeep, htxt, yylex, List.nil_append, List.nil_append] at hrest
            rw [hrest, Piece.text, List.nil_append, unbroken_append, List.append_assoc]
      | endTag n sp =>
          have htag : Piece.IsTag n sp := h.1
          obtain ⟨L', hL', htxt, hrun⟩ := hscan (by simp [AtTag, Piece.print])
          obtain ⟨hplain, hkeep⟩ := process_tag hL' (Or.inr rfl) (tagName_notMem htag)
            [⟨.tagc, [0x3E]⟩] rfl
          have hend := run_endTag e L' htag.name htag.space (pieces.flatMap Piece.print)
          have hrest := ih h.2 (d := []) hplain (by simp)
          rw [hkeep, htxt, yylex, List.nil_append, List.nil_append] at hrest
          rw [hrun, yylex, Piece.print, List.append_assoc, List.singleton_append, hend, hrest,
            keptText_cons, Piece.entersScript, if_neg Bool.false_ne_true, Piece.text,
            List.nil_append, unbroken_append, List.append_assoc]

/-- The lexer takes the text from the beginning of a document. -/
lemma plain_of_construct {b : Option Str} {L : HtmlLexer}
    (h : HtmlLexer.construct b false = .ok L) :
    Plain L ∧ L.txtout = [] := by
  cases b with
  | none =>
      obtain rfl := Except.ok.inj h
      exact ⟨⟨rfl, rfl⟩, rfl⟩
  | some b =>
      obtain ⟨base, -, h⟩ := bind_eq_ok.1 h
      split at h
      · obtain rfl := Except.ok.inj h
        exact ⟨⟨rfl, rfl⟩, rfl⟩
      · exact absurd h (by simp)

/-- A base URL that a document can be read with: none, or an absolute one. -/
def IsBase (baseUrl : Str) : Prop :=
  baseUrl = [] ∨ ∃ u, Url.assign baseUrl = .ok u ∧ u.absolute = true

lemma exists_construct {baseUrl : Str} (h : IsBase baseUrl) :
    ∃ L, HtmlLexer.construct (if baseUrl.isEmpty then none else some baseUrl) false = .ok L := by
  rcases h with rfl | ⟨u, hu, habs⟩
  · exact ⟨_, rfl⟩
  · cases hempty : baseUrl.isEmpty with
    | true => exact ⟨_, rfl⟩
    | false => exact ⟨{ baseUrl := u, getText := !false }, by
        rw [if_neg Bool.false_ne_true, HtmlLexer.construct, bind_eq_ok]
        exact ⟨u, hu, if_pos habs⟩⟩

lemma exists_htmlLex_text (e : EntityHandler) {pieces : List Piece}
    (h : ∀ p ∈ pieces, p.WellFormed) {baseUrl : Str} (hbase : IsBase baseUrl) :
    ∃ r, htmlLex e (pieces.flatMap Piece.print) baseUrl = .ok r ∧
      unbroken r.text = unbroken (keptText pieces) := by
  obtain ⟨L, hL⟩ := exists_construct hbase
  obtain ⟨hplain, hempty⟩ := plain_of_construct hL
  have hrun := unbroken_run e h hplain (d := []) (by simp)
  rw [hempty, List.nil_append] at hrun
  exact ⟨output baseUrl (yylex e L (pieces.flatMap Piece.print)), by rw [htmlLex, hL]; rfl, hrun⟩

/-- The text "x" between two tags without attributes. -/
def between (name : String) : List Piece :=
  [.startTag (lit name) [], .data (lit "x"), .endTag (lit name) []]

lemma wellFormed_between (name : String) (h : Html.name.Matches (lit name))
    (hplain : (lit name).map toLower ∉ Piece.special) : ∀ p ∈ between name, p.WellFormed := by
  have htag : Piece.IsTag (lit name) [] := ⟨h, by simp [White], hplain⟩
  have hx : (Piece.data (lit "x")).WellFormed := by
    refine ⟨by decide, fun c hc => ?_⟩
    obtain rfl := List.mem_singleton.1 hc
    decide
  intro p hp
  simp only [between, List.mem_cons, List.not_mem_nil, or_false] at hp
  rcases hp with rfl | rfl | rfl
  · exact htag
  · exact hx
  · exact htag

end Html

end Mycelium
