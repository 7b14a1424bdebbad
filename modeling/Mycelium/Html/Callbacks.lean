import Mycelium.Html.HtmlLexer

/-!
# What the callbacks read

A callback gets all tokens of its group.  `op_a` and `op_frame` go through them and look for an
attribute name with a literal behind it, `op_link` and `op_meta` look for names in the map of such
pairs, and the other callbacks read nothing.  So two groups with the same first token are processed
in the same way if these four callbacks find the same in them (`process_congr`).  In particular no
callback looks into a name or a name token (`process_agree`), and none looks at the warnings
(`discreet_process`).

The callbacks of a body, a title, a script and a style share one flag, which says whether text is
taken.  They set and clear it without regard to its value, so that it is as the last of them left it
(`getText_foldl`).
-/

namespace Mycelium

namespace HtmlLexer

variable {s : HtmlLexer} {ts ts' us us' : List Token} {x : Str}
  {table : List (Str × (HtmlLexer → List Token → HtmlLexer))}
  {body : HtmlLexer → Token → Option Token → HtmlLexer}

/-! ### The tables -/

/-- A tag has no callback, or one of the table. -/
lemma callback_cases (table : List (Str × (HtmlLexer → List Token → HtmlLexer))) (x : Str) :
    (∀ s ts, callback table s ts x = s) ∨
      ∃ op, (x, op) ∈ table ∧ ∀ s ts, callback table s ts x = op s ts := by
  cases hlookup : table.lookup x with
  | none => exact Or.inl fun s ts => by rw [callback, hlookup]
  | some op =>
      refine Or.inr ⟨op, ?_, fun s ts => by rw [callback, hlookup]⟩
      obtain ⟨l₁, l₂, rfl, -⟩ := List.lookup_eq_some_iff.1 hlookup
      simp

/-- The table `stag_op`, entry by entry. -/
lemma stagOp_induction {Q : Str → (HtmlLexer → List Token → HtmlLexer) → Prop}
    (body : Q (lit "body") opBody) (a : Q (lit "a") opA) (frame : Q (lit "frame") opFrame)
    (iframe : Q (lit "iframe") opFrame) (script : Q (lit "script") opScript)
    (style : Q (lit "style") opScript) (link : Q (lit "link") opLink)
    (meta_ : Q (lit "meta") opMeta)
    (title : Q (lit "title") opTitle) (wordBreak : ∀ k, Q k opWordBreak)
    {op : HtmlLexer → List Token → HtmlLexer} (h : (x, op) ∈ stagOp) : Q x op := by
  rcases List.mem_append.1 h with h | h
  · simp only [List.mem_cons, Prod.mk.injEq, List.not_mem_nil, or_false] at h
    rcases h with ⟨rfl, rfl⟩ | ⟨rfl, rfl⟩ | ⟨rfl, rfl⟩ | ⟨rfl, rfl⟩ | ⟨rfl, rfl⟩ | ⟨rfl, rfl⟩ |
      ⟨rfl, rfl⟩ | ⟨rfl, rfl⟩ | ⟨rfl, rfl⟩
    exacts [body, a, frame, iframe, script, style, link, meta_, title]
  · obtain ⟨k, -, heq⟩ := List.mem_map.1 h
    obtain ⟨rfl, rfl⟩ := Prod.mk.inj heq
    exact wordBreak k

/-- The table `ctag_op`, entry by entry. -/
lemma ctagOp_induction {Q : Str → (HtmlLexer → List Token → HtmlLexer) → Prop}
    (body : Q (lit "body") opBodyC) (a : Q (lit "a") opAC) (frame : Q (lit "frame") opFrameC)
    (iframe : Q (lit "iframe") opFrameC) (script : Q (lit "script") opScriptC)
    (style : Q (lit "style") opScriptC) (link : Q (lit "link") opLinkC)
    (title : Q (lit "title") opTitleC) (wordBreak : ∀ k, Q k opWordBreak)
    {op : HtmlLexer → List Token → HtmlLexer} (h : (x, op) ∈ ctagOp) : Q x op := by
  rcases List.mem_append.1 h with h | h
  · simp only [List.mem_cons, Prod.mk.injEq, List.not_mem_nil, or_false] at h
    rcases h with ⟨rfl, rfl⟩ | ⟨rfl, rfl⟩ | ⟨rfl, rfl⟩ | ⟨rfl, rfl⟩ | ⟨rfl, rfl⟩ | ⟨rfl, rfl⟩ |
      ⟨rfl, rfl⟩ | ⟨rfl, rfl⟩ | ⟨rfl, rfl⟩
    exacts [body, a, frame, iframe, script, style, link, wordBreak _, title]
  · obtain ⟨k, -, heq⟩ := List.mem_map.1 h
    obtain ⟨rfl, rfl⟩ := Prod.mk.inj heq
    exact wordBreak k

/-- The callback reads nothing of its group. -/
def Blind (op : HtmlLexer → List Token → HtmlLexer) : Prop := ∀ s ts ts', op s ts = op s ts'

/-- The callbacks of start tags that read their group. -/
def readers : List (Str × (HtmlLexer → List Token → HtmlLexer)) :=
  [(lit "a", opA), (lit "frame", opFrame), (lit "iframe", opFrame), (lit "link", opLink),
    (lit "meta", opMeta)]

lemma mem_readers_or_blind {op : HtmlLexer → List Token → HtmlLexer} (h : (x, op) ∈ stagOp) :
    (x, op) ∈ readers ∨ Blind op := by
  refine stagOp_induction (Q := fun x op => (x, op) ∈ readers ∨ Blind op)
    ?_ ?_ ?_ ?_ ?_ ?_ ?_ ?_ ?_ ?_ h
  all_goals first
    | exact Or.inr fun _ _ _ => rfl
    | exact fun _ => Or.inr fun _ _ _ => rfl
    | exact Or.inl (by simp [readers])

lemma blind_of_mem_ctagOp {op : HtmlLexer → List Token → HtmlLexer} (h : (x, op) ∈ ctagOp) :
    Blind op := by
  refine ctagOp_induction (Q := fun _ op => Blind op) ?_ ?_ ?_ ?_ ?_ ?_ ?_ ?_ ?_ h
  all_goals first
    | exact fun _ _ _ => rfl
    | exact fun _ _ _ _ => rfl

/-- Two groups that begin alike, and in which the callback of the tag finds the same, as far as `f`
sees it. -/
theorem process_congr {β : Type} (f : HtmlLexer → β) (hhead : ts.head? = ts'.head?)
    (h : ∀ x op, ts.head? = some ⟨.start, x⟩ → (x, op) ∈ readers → f (op s ts) = f (op s ts')) :
    f (process s ts) = f (process s ts') := by
  cases ts with
  | nil =>
      cases ts' with
      | nil => rfl
      | cons i ts' => exact absurd hhead (by simp)
  | cons i ts =>
      cases ts' with
      | nil => exact absurd hhead (by simp)
      | cons i' ts' =>
          obtain rfl := Option.some.inj hhead
          obtain ⟨type, x⟩ := i
          cases type with
          | start =>
              show f (callback stagOp s _ x) = f (callback stagOp s _ x)
              rcases callback_cases stagOp x with hnone | ⟨op, hop, hcall⟩
              · rw [hnone, hnone]
              · rw [hcall, hcall]
                rcases mem_readers_or_blind hop with hread | hblind
                · exact h x op rfl hread
                · rw [hblind s]
          | end_ =>
              show f (callback ctagOp s _ x) = f (callback ctagOp s _ x)
              rcases callback_cases ctagOp x with hnone | ⟨op, hop, hcall⟩
              · rw [hnone, hnone]
              · rw [hcall, hcall, blind_of_mem_ctagOp hop s]
          | _ => rfl

/-! ### The loop over the tokens -/

/-- The body of a loop stops at attribute names only. -/
def SkipsOthers (body : HtmlLexer → Token → Option Token → HtmlLexer) : Prop :=
  ∀ s i next, i.type ≠ .attrname → body s i next = s

lemma skipsOthers_opAToken : SkipsOthers opAToken := by
  intro s i next hi
  have hb : ∀ word, begins i word = false := fun word => by simp [begins, hi]
  unfold opAToken
  split <;> simp [hb]

lemma skipsOthers_opFrameToken : SkipsOthers opFrameToken := by
  intro s i next hi
  have hb : ∀ word, begins i word = false := fun word => by simp [begins, hi]
  unfold opFrameToken
  split <;> simp [hb]

/-! ### The map of the attributes -/

lemma tagMap_append_cons (i : Token) (us : List Token) :
    tagMap (ts ++ i :: us) = tagMap (ts ++ [i]) ++ tagMap (i :: us) := by
  induction ts with
  | nil => rfl
  | cons j ts ih =>
      -- the first pair is the same on both sides
      have hcons : ∀ k vs, tagMap (j :: k :: vs) =
          (if j.type = .attrname ∧ k.type = .literal then [(j.content, k.content)] else []) ++
            tagMap (k :: vs) := by
        intro k vs
        rw [tagMap]
        split <;> rfl
      cases ts with
      | nil =>
          rw [List.singleton_append, List.singleton_append, hcons, hcons, List.append_assoc]
          rfl
      | cons k ts =>
          simp only [List.cons_append] at ih ⊢
          rw [hcons, hcons, ih, List.append_assoc]

lemma tagMap_cons_of_type_ne {i : Token} (hi : i.type ≠ .attrname) :
    tagMap (i :: us) = tagMap us := by
  cases us with
  | nil => rfl
  | cons j us => simp [tagMap, hi]

lemma tagMap_concat {i : Token} (hi : i.type ≠ .literal) : tagMap (ts ++ [i]) = tagMap ts := by
  induction ts with
  | nil => rfl
  | cons j ts ih =>
      cases ts with
      | nil => simp [tagMap, hi]
      | cons k ts =>
          simp only [List.cons_append] at ih ⊢
          rw [tagMap, tagMap, ih]

/-- An attribute with a literal is in the map. -/
lemma tagMap_literal (n v : Str) :
    tagMap (ts ++ ⟨.attrname, n⟩ :: ⟨.literal, v⟩ :: us) = tagMap ts ++ (n, v) :: tagMap us := by
  rw [tagMap_append_cons, tagMap_concat (by simp), tagMap, tagMap_cons_of_type_ne (by simp)]
  simp

/-- An attribute with another value is not. -/
lemma tagMap_other (n : Str) {i : Token} (hi : i.type ≠ .attrname) (hlit : i.type ≠ .literal) :
    tagMap (ts ++ ⟨.attrname, n⟩ :: i :: us) = tagMap ts ++ tagMap us := by
  rw [tagMap_append_cons, tagMap_concat (by simp), tagMap, tagMap_cons_of_type_ne hi]
  simp [hlit]

/-! ### Tokens that no callback looks into -/

/-- The tokens are the same, or names or name tokens. -/
def Agree (i j : Token) : Prop :=
  i.type = j.type ∧ (i.type = .name ∨ i.type = .nmtoken ∨ i.content = j.content)

lemma Agree.refl (i : Token) : Agree i i := ⟨rfl, Or.inr (Or.inr rfl)⟩

lemma Agree.trans {i j k : Token} (hij : Agree i j) (hjk : Agree j k) : Agree i k := by
  refine ⟨hij.1.trans hjk.1, ?_⟩
  rcases hij.2 with h | h | h
  · exact Or.inl h
  · exact Or.inr (Or.inl h)
  · rw [hij.1, h]
    exact hjk.2

lemma Agree.eq {i j : Token} (h : Agree i j) (hname : i.type ≠ .name)
    (hnmtoken : i.type ≠ .nmtoken) :
    i = j := by
  obtain ⟨type, content⟩ := i
  obtain ⟨type', content'⟩ := j
  obtain ⟨rfl, h | h | rfl⟩ := h
  · exact absurd h hname
  · exact absurd h hnmtoken
  · rfl

/-- The body of a loop looks at the next token only if it is a literal. -/
def ReadsLiterals (body : HtmlLexer → Token → Option Token → HtmlLexer) : Prop :=
  ∀ s i j, j.type ≠ .literal → body s i (some j) = body s i none

lemma readsLiterals_opAToken : ReadsLiterals opAToken := by
  rintro s i ⟨type, content⟩ hj
  cases type <;> first | rfl | exact absurd rfl hj

lemma readsLiterals_opFrameToken : ReadsLiterals opFrameToken := by
  rintro s i ⟨type, content⟩ hj
  cases type <;> first | rfl | exact absurd rfl hj

lemma forTokens_agree (hbody : SkipsOthers body) (hlit : ReadsLiterals body)
    (h : List.Forall₂ Agree ts ts') : forTokens body s ts = forTokens body s ts' := by
  induction h generalizing s with
  | nil => rfl
  | @cons i j ts ts' hij h ih =>
      have hnext : body s i ts.head? = body s i ts'.head? := by
        cases h with
        | nil => rfl
        | @cons k k' ts ts' hk _ =>
            by_cases htype : k.type = .literal
            · rw [hk.eq (by simp [htype]) (by simp [htype])]
              rfl
            · rw [List.head?_cons, List.head?_cons, hlit s i k htype, hlit s i k' (hk.1 ▸ htype)]
      have hfirst : body s i ts'.head? = body s j ts'.head? := by
        by_cases htype : i.type = .attrname
        · rw [hij.eq (by simp [htype]) (by simp [htype])]
        · rw [hbody s i _ htype, hbody s j _ (hij.1 ▸ htype)]
      rw [forTokens, forTokens, hnext, hfirst, ih]

lemma tagMap_agree (h : List.Forall₂ Agree ts ts') : tagMap ts = tagMap ts' := by
  induction h with
  | nil => rfl
  | @cons i i' ts ts' hi h ih =>
      cases h with
      | nil => rfl
      | @cons j j' ts ts' hj _ =>
          rw [tagMap, tagMap, ih]
          by_cases hpair : i.type = .attrname ∧ j.type = .literal
          · rw [hi.eq (by simp [hpair]) (by simp [hpair]),
              hj.eq (by simp [hpair]) (by simp [hpair])]
          · have hpair' : ¬(i'.type = .attrname ∧ j'.type = .literal) := by rwa [← hi.1, ← hj.1]
            simp [hpair, hpair']

theorem process_agree (h : List.Forall₂ Agree ts ts') : process s ts = process s ts' := by
  have hfind : ∀ k, tagFind ts k = tagFind ts' k :=
    fun k => by rw [tagFind, tagFind, tagMap_agree h]
  have hreaders : ∀ x op, (x, op) ∈ readers → op s ts = op s ts' := by
    intro x op hop
    simp only [readers, List.mem_cons, Prod.mk.injEq, List.not_mem_nil, or_false] at hop
    rcases hop with ⟨rfl, rfl⟩ | ⟨rfl, rfl⟩ | ⟨rfl, rfl⟩ | ⟨rfl, rfl⟩ | ⟨rfl, rfl⟩
    · rw [opA, opA, forTokens_agree skipsOthers_opAToken readsLiterals_opAToken h]
    · rw [opFrame, opFrame, forTokens_agree skipsOthers_opFrameToken readsLiterals_opFrameToken h]
    · rw [opFrame, opFrame, forTokens_agree skipsOthers_opFrameToken readsLiterals_opFrameToken h]
    · rw [opLink, opLink, hfind, hfind, hfind]
    · rw [opMeta, opMeta, hfind, hfind, hfind]
  cases h with
  | nil => rfl
  | @cons i j ts ts' hij _ =>
      by_cases hname : i.type = .name ∨ i.type = .nmtoken
      · -- such a group is ignored
        have hj : j.type = .name ∨ j.type = .nmtoken := by rwa [← hij.1]
        rcases hname with hi | hi <;> rcases hj with hj | hj <;> simp [process, hi, hj]
      · rw [not_or] at hname
        refine process_congr id ?_ fun x op _ => hreaders x op
        rw [hij.eq hname.1 hname.2]
        rfl

/-! ### Warnings -/

/-- The lexer without its warnings. -/
def quiet (s : HtmlLexer) : HtmlLexer := { s with warnings := [] }

/-- The callback does not look at the warnings. -/
def Discreet (op : HtmlLexer → List Token → HtmlLexer) : Prop :=
  ∀ s ts, (op s.quiet ts).quiet = (op s ts).quiet

lemma quiet_textWordBreak (s : HtmlLexer) : s.quiet.textWordBreak = s.textWordBreak.quiet := by
  rw [textWordBreak, textWordBreak, apply_ite quiet]
  rfl

lemma quiet_wordBreak (s : HtmlLexer) : s.quiet.wordBreak = s.wordBreak.quiet := by
  rw [wordBreak, wordBreak, apply_ite quiet, apply_ite quiet, ← quiet_textWordBreak]
  rfl

lemma quiet_linkAdd (s : HtmlLexer) (link : Str) :
    s.quiet.linkAdd link = (s.linkAdd link).quiet := by
  rw [linkAdd, linkAdd, apply_ite quiet]
  cases hresolve : resolve s.baseUrl link <;> simp [quiet, hresolve]

lemma quiet_forTokens (hbody : ∀ s i next, body s.quiet i next = (body s i next).quiet) :
    forTokens body s.quiet ts = (forTokens body s ts).quiet := by
  induction ts generalizing s with
  | nil => rfl
  | cons i ts ih => rw [forTokens, forTokens, hbody, ih]

lemma quiet_opAToken (s : HtmlLexer) (i : Token) (next : Option Token) :
    opAToken s.quiet i next = (opAToken s i next).quiet := by
  unfold opAToken
  split
  · rw [quiet_linkAdd, apply_ite quiet, apply_ite quiet]
    rfl
  · rfl

lemma quiet_opFrameToken (s : HtmlLexer) (i : Token) (next : Option Token) :
    opFrameToken s.quiet i next = (opFrameToken s i next).quiet := by
  unfold opFrameToken
  split
  · rw [quiet_linkAdd, apply_ite quiet]
    rfl
  · rfl

lemma quiet_opA (s : HtmlLexer) (ts : List Token) : opA s.quiet ts = (opA s ts).quiet := by
  rw [opA, opA, apply_ite quiet, quiet_forTokens quiet_opAToken]
  rfl

lemma quiet_opFrame (s : HtmlLexer) (ts : List Token) :
    opFrame s.quiet ts = (opFrame s ts).quiet := by
  rw [opFrame, opFrame, apply_ite quiet, quiet_forTokens quiet_opFrameToken, quiet_wordBreak]
  rfl

lemma quiet_metaHttpEquiv (s : HtmlLexer) (httpEquiv : Str) (content : Option Str) :
    s.quiet.metaHttpEquiv httpEquiv content = (s.metaHttpEquiv httpEquiv content).quiet := by
  cases content with
  | none => rfl
  | some content =>
      rw [metaHttpEquiv, metaHttpEquiv]
      split_ifs
      · cases charsetSearch content <;> rfl
      · cases refreshSearch none content with
        | none => rfl
        | some m =>
            show (s.quiet.linkAdd m).submitLink = _
            rw [quiet_linkAdd]
            rfl
      · rfl

lemma quiet_opMeta (s : HtmlLexer) (ts : List Token) : opMeta s.quiet ts = (opMeta s ts).quiet := by
  rw [opMeta, opMeta]
  cases tagFind ts (lit "name") with
  | none =>
      cases tagFind ts (lit "http-equiv") with
      | none => rfl
      | some h => exact quiet_metaHttpEquiv s h _
  | some name =>
      cases tagFind ts (lit "content") with
      | none =>
          cases tagFind ts (lit "http-equiv") with
          | none => rfl
          | some h => exact quiet_metaHttpEquiv s h none
      | some content =>
          dsimp only
          cases iequals name (lit "robots") with
          | false =>
              cases tagFind ts (lit "http-equiv") with
              | none => rfl
              | some h => exact quiet_metaHttpEquiv s h (some content)
          | true =>
              cases tagFind ts (lit "http-equiv") with
              | none => rfl
              | some h => exact quiet_metaHttpEquiv { s with analysis := _ } h (some content)

/-- Only this callback writes warnings. -/
lemma discreet_opLink : Discreet opLink := by
  intro s ts
  rw [opLink, opLink]
  cases tagFind ts (lit "href") with
  | none => rfl
  | some href =>
      cases tagFind ts (lit "rel") with
      | none => rfl
      | some rel =>
          cases tagFind ts (lit "type") with
          | none => rfl
          | some type =>
              dsimp only
              rw [apply_ite quiet, apply_ite quiet]
              rfl

lemma discreet_of_quiet {op : HtmlLexer → List Token → HtmlLexer}
    (h : ∀ s ts, op s.quiet ts = (op s ts).quiet) : Discreet op := fun s ts => by
  rw [h]
  rfl

lemma discreet_opWordBreak : Discreet opWordBreak := discreet_of_quiet fun s _ => quiet_wordBreak s

lemma discreet_of_mem_stagOp {op : HtmlLexer → List Token → HtmlLexer} (h : (x, op) ∈ stagOp) :
    Discreet op :=
  stagOp_induction (Q := fun _ op => Discreet op)
    (discreet_of_quiet fun s _ => quiet_wordBreak { s with getText := true })
    (discreet_of_quiet quiet_opA) (discreet_of_quiet quiet_opFrame)
    (discreet_of_quiet quiet_opFrame)
    (discreet_of_quiet fun _ _ => rfl) (discreet_of_quiet fun _ _ => rfl) discreet_opLink
    (discreet_of_quiet quiet_opMeta) (discreet_of_quiet fun _ _ => rfl)
    (fun _ => discreet_opWordBreak) h

lemma quiet_opAC (s : HtmlLexer) (ts : List Token) : opAC s.quiet ts = (opAC s ts).quiet := by
  rw [opAC, opAC, apply_ite quiet, apply_ite quiet]
  rfl

lemma quiet_opFrameC (s : HtmlLexer) (ts : List Token) :
    opFrameC s.quiet ts = (opFrameC s ts).quiet := by
  rw [opFrameC, opFrameC, ← quiet_wordBreak, apply_ite quiet]
  rfl

lemma discreet_of_mem_ctagOp {op : HtmlLexer → List Token → HtmlLexer} (h : (x, op) ∈ ctagOp) :
    Discreet op :=
  ctagOp_induction (Q := fun _ op => Discreet op) (discreet_of_quiet fun _ _ => rfl)
    (discreet_of_quiet quiet_opAC) (discreet_of_quiet quiet_opFrameC)
    (discreet_of_quiet quiet_opFrameC) (discreet_of_quiet fun _ _ => rfl)
    (discreet_of_quiet fun _ _ => rfl) (discreet_of_quiet fun _ _ => rfl)
    (discreet_of_quiet fun _ _ => rfl) (fun _ => discreet_opWordBreak) h

lemma discreet_callback {table : List (Str × (HtmlLexer → List Token → HtmlLexer))}
    (htable : ∀ op, (x, op) ∈ table → Discreet op) (s : HtmlLexer) (ts : List Token) :
    (callback table s.quiet ts x).quiet = (callback table s ts x).quiet := by
  rcases callback_cases table x with hnone | ⟨op, hop, hcall⟩
  · rw [hnone, hnone]
    rfl
  · rw [hcall, hcall, htable op hop]

/-- What is written besides warnings does not depend on them. -/
theorem discreet_process : Discreet process := by
  intro s ts
  cases ts with
  | nil => rfl
  | cons i ts =>
      obtain ⟨type, x⟩ := i
      cases type with
      | start => exact discreet_callback (fun _ => discreet_of_mem_stagOp) s _
      | end_ => exact discreet_callback (fun _ => discreet_of_mem_ctagOp) s _
      | data =>
          show (if s.getText then if s.inlink then s.quiet.linkTextAdd x else s.quiet.textAdd x
            else s.quiet).quiet
              = (if s.getText then if s.inlink then s.linkTextAdd x else s.textAdd x
            else s).quiet
          split_ifs <;> rfl
      | _ => rfl

/-! ### The flag for text -/

/-- The start tags that set or clear the flag for text. -/
def startFlags : List (Str × Bool) :=
  [(lit "body", true), (lit "title", true), (lit "script", false), (lit "style", false)]

/-- The end tags that set or clear the flag for text. -/
def endFlags : List (Str × Bool) :=
  [(lit "body", false), (lit "title", false), (lit "script", true), (lit "style", true)]

/-- What a group makes of the flag for text; `none` if it leaves the flag as it is. -/
def textFlag : List Token → Option Bool
  | ⟨.start, x⟩ :: _ => startFlags.lookup x
  | ⟨.end_, x⟩ :: _ => endFlags.lookup x
  | _ => none

/-- The callback leaves the flag for text as it is. -/
def KeepsText (op : HtmlLexer → List Token → HtmlLexer) : Prop :=
  ∀ s ts, (op s ts).getText = s.getText

@[simp] lemma getText_wordBreak (s : HtmlLexer) : s.wordBreak.getText = s.getText := by
  rw [wordBreak]
  split_ifs
  · rfl
  · rw [textWordBreak]
    split_ifs <;> rfl
  · rfl

@[simp] lemma getText_linkAdd (s : HtmlLexer) (link : Str) :
    (s.linkAdd link).getText = s.getText := by
  rw [linkAdd]
  split
  · rfl
  · split <;> rfl

lemma getText_forTokens (hbody : ∀ s i next, (body s i next).getText = s.getText) (s : HtmlLexer)
    (ts : List Token) : (forTokens body s ts).getText = s.getText := by
  induction ts generalizing s with
  | nil => rfl
  | cons i ts ih => rw [forTokens, ih, hbody]

lemma getText_opAToken (s : HtmlLexer) (i : Token) (next : Option Token) :
    (opAToken s i next).getText = s.getText := by
  rw [opAToken.eq_def]
  split
  · split_ifs
    · exact getText_linkAdd s _
    · rfl
    · rfl
  · rfl

lemma getText_opFrameToken (s : HtmlLexer) (i : Token) (next : Option Token) :
    (opFrameToken s i next).getText = s.getText := by
  rw [opFrameToken.eq_def]
  split
  · split_ifs
    · exact getText_linkAdd s _
    · rfl
  · rfl

lemma keepsText_opA : KeepsText opA := by
  intro s ts
  rw [opA]
  split
  · exact getText_forTokens getText_opAToken s ts
  · rfl

lemma keepsText_opFrame : KeepsText opFrame := by
  intro s ts
  rw [opFrame]
  split
  · rw [getText_wordBreak, getText_forTokens getText_opFrameToken]
  · rfl

lemma keepsText_opLink : KeepsText opLink := by
  intro s ts
  rw [opLink]
  split
  · split_ifs <;> rfl
  · rfl

lemma getText_metaHttpEquiv (s : HtmlLexer) (httpEquiv : Str) (content : Option Str) :
    (s.metaHttpEquiv httpEquiv content).getText = s.getText := by
  rw [metaHttpEquiv.eq_def]
  split
  · rfl
  · split_ifs
    · split <;> rfl
    · split
      · exact getText_linkAdd s _
      · rfl
    · rfl

lemma keepsText_opMeta : KeepsText opMeta := by
  intro s ts
  rw [opMeta]
  split
  · rw [getText_metaHttpEquiv]
    split
    · split_ifs <;> rfl
    · rfl
  · split
    · split_ifs <;> rfl
    · rfl

lemma keepsText_opAC : KeepsText opAC := by
  intro s ts
  rw [opAC]
  split_ifs <;> rfl

lemma keepsText_opFrameC : KeepsText opFrameC := by
  intro s ts
  rw [opFrameC, getText_wordBreak]
  split_ifs <;> rfl

lemma keepsText_opWordBreak : KeepsText opWordBreak := fun s _ => getText_wordBreak s

/-- The callback of a start tag that is not among the four leaves the flag as it is. -/
lemma keepsText_of_mem_stagOp {op : HtmlLexer → List Token → HtmlLexer} (h : (x, op) ∈ stagOp) :
    (startFlags.lookup x).isSome = true ∨ KeepsText op :=
  stagOp_induction (Q := fun x op => (startFlags.lookup x).isSome = true ∨ KeepsText op)
    (Or.inl rfl) (Or.inr keepsText_opA) (Or.inr keepsText_opFrame) (Or.inr keepsText_opFrame)
    (Or.inl rfl) (Or.inl rfl) (Or.inr keepsText_opLink) (Or.inr keepsText_opMeta) (Or.inl rfl)
    (fun _ => Or.inr keepsText_opWordBreak) h

lemma keepsText_of_mem_ctagOp {op : HtmlLexer → List Token → HtmlLexer} (h : (x, op) ∈ ctagOp) :
    (endFlags.lookup x).isSome = true ∨ KeepsText op :=
  ctagOp_induction (Q := fun x op => (endFlags.lookup x).isSome = true ∨ KeepsText op)
    (Or.inl rfl) (Or.inr keepsText_opAC) (Or.inr keepsText_opFrameC) (Or.inr keepsText_opFrameC)
    (Or.inl rfl) (Or.inl rfl) (Or.inr fun _ _ => rfl) (Or.inl rfl)
    (fun _ => Or.inr keepsText_opWordBreak) h

lemma getText_callback {flags : List (Str × Bool)}
    (hsome : ∀ b, (x, b) ∈ flags → ∀ s ts, (callback table s ts x).getText = b)
    (hnone : ∀ op, (x, op) ∈ table → (flags.lookup x).isSome = true ∨ KeepsText op)
    (s : HtmlLexer) (ts : List Token) :
    (callback table s ts x).getText = (flags.lookup x).getD s.getText := by
  cases hx : flags.lookup x with
  | some b =>
      obtain ⟨l, r, rfl, -⟩ := List.lookup_eq_some_iff.1 hx
      rw [hsome b (by simp), Option.getD_some]
  | none =>
      rcases callback_cases table x with hcall | ⟨op, hop, hcall⟩
      · rw [hcall, Option.getD_none]
      · have hkeeps := (hnone op hop).resolve_left (by simp [hx])
        rw [hcall, hkeeps, Option.getD_none]

/-- What `process` makes of the flag for text. -/
theorem getText_process (s : HtmlLexer) (group : List Token) :
    (process s group).getText = (textFlag group).getD s.getText := by
  cases group with
  | nil => rfl
  | cons i ts =>
      obtain ⟨type, x⟩ := i
      cases type with
      | start =>
          refine getText_callback (fun b hb s ts => ?_) (fun _ => keepsText_of_mem_stagOp) s _
          simp only [startFlags, List.mem_cons, Prod.mk.injEq, List.not_mem_nil, or_false] at hb
          rcases hb with ⟨rfl, rfl⟩ | ⟨rfl, rfl⟩ | ⟨rfl, rfl⟩ | ⟨rfl, rfl⟩
          · exact getText_wordBreak _
          · rfl
          · rfl
          · rfl
      | end_ =>
          refine getText_callback (fun b hb s ts => ?_) (fun _ => keepsText_of_mem_ctagOp) s _
          simp only [endFlags, List.mem_cons, Prod.mk.injEq, List.not_mem_nil, or_false] at hb
          rcases hb with ⟨rfl, rfl⟩ | ⟨rfl, rfl⟩ | ⟨rfl, rfl⟩ | ⟨rfl, rfl⟩ <;> rfl
      | data =>
          rw [process]
          dsimp only
          split_ifs <;> rfl
      | _ => rfl

/-- After any groups the flag for text is as the last one made it that changes it. -/
theorem getText_foldl (s : HtmlLexer) (groups : List (List Token)) :
    (groups.foldl process s).getText = (groups.reverse.findSome? textFlag).getD s.getText := by
  induction groups using List.reverseRecOn with
  | nil => rfl
  | append_singleton groups group ih =>
      rw [List.foldl_append, List.foldl_cons, List.foldl_nil, getText_process, ih,
        List.reverse_append, List.reverse_singleton, List.singleton_append, List.findSome?_cons]
      cases textFlag group <;> rfl

/-- A title, script or style element that holds character data only, as the scanner hands it
over. -/
structure Raw where
  name : Str
  name_mem : name ∈ [lit "title", lit "script", lit "style"]
  /-- The tokens after the first one in the group of the start tag. -/
  startRest : List Token
  data : List (List Token)
  data_type : ∀ group ∈ data, ∀ i ∈ group, i.type = .data
  /-- The tokens after the first one in the group of the end tag. -/
  endRest : List Token

/-- The groups of the element. -/
def Raw.groups (e : Raw) : List (List Token) :=
  (⟨.start, e.name⟩ :: e.startRest) :: e.data ++ [⟨.end_, e.name⟩ :: e.endRest]

/-- The end tag of a title clears the flag, and the one of a script or a style sets it. -/
lemma Raw.textFlag_end (e : Raw) :
    textFlag (⟨.end_, e.name⟩ :: e.endRest) = some (e.name != lit "title") := by
  have hmem := e.name_mem
  simp only [List.mem_cons, List.not_mem_nil, or_false] at hmem
  rcases hmem with h | h | h <;> rw [h] <;> rfl

lemma getText_construct {baseUrl : Option Str} {onlyBody : Bool}
    (h : construct baseUrl onlyBody = .ok s) : s.getText = !onlyBody := by
  cases baseUrl with
  | none =>
      cases h
      rfl
  | some b =>
      obtain ⟨base, -, h⟩ := bind_eq_ok.1 h
      split at h
      · cases h
        rfl
      · cases h

/-- After the element the flag has the value from before it if and only if the last group that
changes the flag, or the constructor, left it clear before a title, or set before a script or a
style. -/
theorem getText_groups_iff {baseUrl : Option Str} {onlyBody : Bool}
    (h : construct baseUrl onlyBody = .ok s) (before : List (List Token)) (e : Raw) :
    (e.groups.foldl process (before.foldl process s)).getText = (before.foldl process s).getText ↔
      (before.reverse.findSome? textFlag).getD (!onlyBody) = (e.name != lit "title") := by
  have hend : (e.groups.foldl process (before.foldl process s)).getText =
      (e.name != lit "title") := by
    rw [Raw.groups, List.foldl_append, List.foldl_cons, List.foldl_nil, getText_process,
      e.textFlag_end, Option.getD_some]
  rw [hend, getText_foldl, getText_construct h]
  exact eq_comm

theorem getText_groups_iff_script :
    (List.foldl process { getText := true }
      (Raw.groups ⟨lit "script", by decide, [], [], by simp, []⟩)).getText = true :=
  (getText_groups_iff (rfl : construct none false = .ok { getText := true }) []
    ⟨lit "script", by decide, [], [], by simp, []⟩).2 (by decide)

/-- As `html_lex` sets the lexer up, a title turns the text off; with the other setting of the
constructor a script in the head turns it on. -/
theorem getText_groups_title :
    (construct none false = .ok { getText := true } ∧
      (List.foldl process { getText := true }
        (Raw.groups ⟨lit "title", by decide, [], [[⟨.data, lit "a"⟩]], by simp, []⟩)).getText =
          false) ∧
    (construct none true = .ok { getText := false } ∧
      (List.foldl process { getText := false }
        (Raw.groups ⟨lit "script", by decide, [], [], by simp, []⟩)).getText = true) :=
  ⟨⟨rfl, rfl⟩, ⟨rfl, rfl⟩⟩

end HtmlLexer

end Mycelium
