import Mycelium.Html.Callbacks

/-!
# What a start tag says

The callbacks of five start tags read the attributes.  An anchor and a frame give a link, `link`
gives a feed, and `meta` gives directives for robots, a charset or a refresh.  `said` collects this
from the attributes that have a literal, and `act` is what becomes of a lexer that is told so.  The
callbacks are `act` after `said`, so that groups whose start tags say the same are processed in the
same way, and no others are, whatever the lexer (`said_eq_iff`).
-/

namespace Mycelium

namespace HtmlLexer

variable {s : HtmlLexer} {tag : Str} {ts ts' : List Token} {attrs : List (Str × Str)}

/-! ### Attributes -/

/-- The values of the attributes whose names begin with `word`. -/
def values (word : Str) (attrs : List (Str × Str)) : List Str :=
  (attrs.filter fun i => begins ⟨.attrname, i.1⟩ word).map Prod.snd

/-- The value of an attribute; a later one of the same name overwrites it. -/
def attrFind (attrs : List (Str × Str)) (name : Str) : Option Str := attrs.reverse.lookup name

/-- The URL of a reference, empty if it cannot be resolved. -/
def target (base : Url) (link : Str) : Str :=
  if base.empty then link
  else
    match resolve base link with
    | .ok url => url
    | .error _ => []

/-- The reference cannot be resolved, and the text of the link is dropped with it. -/
def unresolved (base : Url) (link : Str) : Bool := !base.empty && !(resolve base link).isOk

/-! ### What is said -/

/-- The kinds of feeds. -/
inductive Feed where
  | rss2 | atom | rss
deriving DecidableEq, Repr

/-- The feed of a media type. -/
def feedOf (type : Str) : Option Feed :=
  if iequals type (lit "application/rss+xml") then some .rss2
  else if iequals type (lit "application/atom+xml") then some .atom
  else if iequals type (lit "text/xml") then some .rss
  else none

/-- What a start tag says. -/
structure Said where
  /-- The URL of a link, and whether text that was collected for a link is dropped. -/
  link : Option (Str × Bool) := none
  /-- The link is not to be followed. -/
  nofollow : Bool := false
  /-- A feed and its URL. -/
  feed : Option (Feed × Str) := none
  index : Option Bool := none
  follow : Option Bool := none
  charset : Option Str := none
  /-- The URL of a refresh. -/
  refresh : Option Str := none
deriving DecidableEq

/-- The last reference of a tag counts. -/
def saidLink (base : Url) (refs : List Str) : Option (Str × Bool) :=
  refs.getLast?.map fun link => (target base link, refs.any (unresolved base))

def saidFeed (base : Url) (attrs : List (Str × Str)) : Option (Feed × Str) :=
  match attrFind attrs (lit "href"), attrFind attrs (lit "rel"), attrFind attrs (lit "type") with
  | some href, some rel, some type =>
      if iequals rel (lit "alternate") then
        (feedOf type).map fun feed => (feed, (feedHref base (trim href)).1)
      else none
  | _, _, _ => none

/-- The directives for robots, as to indexing and as to following: the last one counts, and nothing
behind "all" and "none". -/
def directives : List Str → Option Bool × Option Bool
  | [] => (none, none)
  | tok :: toks =>
      let tok := tok.map toLower
      let rest := directives toks
      if tok = lit "index" then (rest.1.or (some true), rest.2)
      else if tok = lit "follow" then (rest.1, rest.2.or (some true))
      else if tok = lit "all" then (some true, some true)
      else if tok = lit "noindex" then (rest.1.or (some false), rest.2)
      else if tok = lit "nofollow" then (rest.1, rest.2.or (some false))
      else if tok = lit "none" then (some false, some false)
      else rest

def saidRobots (attrs : List (Str × Str)) : Option Bool × Option Bool :=
  match attrFind attrs (lit "name"), attrFind attrs (lit "content") with
  | some name, some content =>
      if iequals name (lit "robots") then directives (tokenize (lit ", ") content) else (none, none)
  | _, _ => (none, none)

def saidCharset (attrs : List (Str × Str)) : Option Str :=
  match attrFind attrs (lit "http-equiv"), attrFind attrs (lit "content") with
  | some httpEquiv, some content =>
      if iequals httpEquiv (lit "content-type") then (charsetSearch content).map trim else none
  | _, _ => none

def saidRefresh (base : Url) (attrs : List (Str × Str)) : Option Str :=
  match attrFind attrs (lit "http-equiv"), attrFind attrs (lit "content") with
  | some httpEquiv, some content =>
      if iequals httpEquiv (lit "refresh") then (refreshSearch none content).map (target base)
      else none
  | _, _ => none

/-- What a start tag says by its attributes.  Anchors and frames are silent while no text is
taken. -/
def said (s : HtmlLexer) (tag : Str) (attrs : List (Str × Str)) : Said :=
  if tag = lit "a" then
    if s.getText then
      { link := saidLink s.baseUrl (values (lit "href") attrs)
        nofollow := (values (lit "rel") attrs).any relNofollow }
    else {}
  else if tag = lit "frame" ∨ tag = lit "iframe" then
    if s.getText then { link := saidLink s.baseUrl (values (lit "src") attrs) } else {}
  else if tag = lit "link" then { feed := saidFeed s.baseUrl attrs }
  else if tag = lit "meta" then
    { index := (saidRobots attrs).1
      follow := (saidRobots attrs).2
      charset := saidCharset attrs
      refresh := saidRefresh s.baseUrl attrs }
  else {}

/-! ### What becomes of it -/

def withFeed (a : Analysis) : Option (Feed × Str) → Analysis
  | none => a
  | some (.rss2, href) => { a with rss2 := href }
  | some (.atom, href) => { a with atom := href }
  | some (.rss, href) => { a with rss := href }

/-- The link that is being collected. -/
def withLink (s : HtmlLexer) : Option (Str × Bool) → HtmlLexer
  | none => s
  | some (url, dropped) =>
      { s with curlink := ⟨url, if dropped then [] else s.curlink.txt⟩, inlink := true }

def withRobots (s : HtmlLexer) (d : Option Bool × Option Bool) : HtmlLexer :=
  { s with analysis := { s.analysis with
      index := d.1.getD s.analysis.index
      follow := d.2.getD s.analysis.follow } }

/-- A link that is complete. -/
def withRefresh (s : HtmlLexer) : Option Str → HtmlLexer
  | none => s
  | some url => { s with curlink := { s.curlink with url := url } }.submitLink

/-- The lexer after a start tag has said this. -/
def act (s : HtmlLexer) (d : Said) : HtmlLexer :=
  let a := { withFeed s.analysis d.feed with
    index := d.index.getD s.analysis.index
    follow := d.follow.getD s.analysis.follow
    charset := d.charset.getD s.analysis.charset }
  let s := { s with analysis := a, linkNofollow := s.linkNofollow || d.nofollow }
  (s.withLink d.link).withRefresh d.refresh

/-! ### The callbacks -/

lemma linkAdd_eq (s : HtmlLexer) (link : Str) : s.linkAdd link =
    { s with curlink :=
        ⟨target s.baseUrl link, if unresolved s.baseUrl link then [] else s.curlink.txt⟩ } := by
  rw [linkAdd, target, unresolved]
  cases hempty : s.baseUrl.empty with
  | true => simp
  | false => cases hresolve : resolve s.baseUrl link <;> simp [Except.isOk, Except.toBool]

/-- The loops go over the attributes that have a literal. -/
lemma forTokens_eq_foldl {body : HtmlLexer → Token → Option Token → HtmlLexer}
    (hskips : SkipsOthers body) (hreads : ReadsLiterals body) (hnone : ∀ s i, body s i none = s) :
    forTokens body s ts =
      (tagMap ts).foldl (fun s i => body s ⟨.attrname, i.1⟩ (some ⟨.literal, i.2⟩)) s := by
  induction ts generalizing s with
  | nil => rfl
  | cons i ts ih =>
      rw [forTokens, ih]
      cases ts with
      | nil =>
          rw [List.head?_nil, hnone]
          rfl
      | cons j ts =>
          rw [List.head?_cons, tagMap]
          by_cases hpair : i.type = .attrname ∧ j.type = .literal
          · obtain ⟨type, name⟩ := i
            obtain ⟨type', value⟩ := j
            obtain ⟨rfl, rfl⟩ := hpair
            simp
          · have hsame : body s i (some j) = s := by
              by_cases hi : i.type = .attrname
              · rw [hreads s i j fun hj => hpair ⟨hi, hj⟩, hnone]
              · exact hskips s i _ hi
            simp [hpair, hsame]

lemma values_concat (word : Str) (attrs : List (Str × Str)) (i : Str × Str) :
    values word (attrs ++ [i]) =
      values word attrs ++ if begins ⟨.attrname, i.1⟩ word then [i.2] else [] := by
  rw [values, List.filter_append, List.map_append, values]
  cases hbegins : begins ⟨.attrname, i.1⟩ word <;> simp [hbegins]

/-- One more reference. -/
lemma withLink_concat (s : HtmlLexer) (refs : List Str) (link : Str) :
    { (s.withLink (saidLink s.baseUrl refs)).linkAdd link with inlink := true } =
      s.withLink (saidLink s.baseUrl (refs ++ [link])) := by
  have hbase : (s.withLink (saidLink s.baseUrl refs)).baseUrl = s.baseUrl := by
    cases saidLink s.baseUrl refs <;> rfl
  rw [linkAdd_eq, hbase]
  cases hrefs : refs.getLast? with
  | none =>
      obtain rfl := List.getLast?_eq_none_iff.1 hrefs
      simp [saidLink, withLink]
  | some r =>
      simp only [saidLink, hrefs, Option.map_some, withLink, List.getLast?_concat, List.any_append,
        List.any_cons, List.any_nil, Bool.or_false]
      cases unresolved s.baseUrl link <;> cases refs.any (unresolved s.baseUrl) <;> simp

/-- No name begins both with "href" and with "rel". -/
lemma not_begins_rel {name : Str} (h : begins ⟨.attrname, name⟩ (lit "href") = true) :
    begins ⟨.attrname, name⟩ (lit "rel") = false := by
  simp only [begins, decide_true, Bool.true_and, decide_eq_true_eq, decide_eq_false_iff_not] at h ⊢
  intro hrel
  have hthree : (name.take (lit "href").length).take 3 = name.take (lit "rel").length := by
    rw [List.take_take]
    rfl
  rw [h, hrel] at hthree
  exact absurd hthree (by decide)

lemma act_link (s : HtmlLexer) (link : Option (Str × Bool)) (nofollow : Bool) :
    s.act { link := link, nofollow := nofollow } =
      { s with linkNofollow := s.linkNofollow || nofollow }.withLink link := rfl

/-- The loop of `op_a`, by induction on the attributes from the last one. -/
lemma foldl_opAToken (s : HtmlLexer) (attrs : List (Str × Str)) :
    attrs.foldl (fun s i => opAToken s ⟨.attrname, i.1⟩ (some ⟨.literal, i.2⟩)) s =
      s.act { link := saidLink s.baseUrl (values (lit "href") attrs)
              nofollow := (values (lit "rel") attrs).any relNofollow } := by
  induction attrs using List.reverseRecOn with
  | nil => simp [values, saidLink, act_link, withLink]
  | append_singleton attrs i ih =>
      rw [List.foldl_append, ih, List.foldl_cons, List.foldl_nil, opAToken, values_concat,
        values_concat, act_link, act_link]
      cases hhref : begins ⟨.attrname, i.1⟩ (lit "href") with
      | true =>
          rw [not_begins_rel hhref]
          simp only [if_true, Bool.false_eq_true, if_false, List.append_nil]
          exact withLink_concat { s with linkNofollow := _ } _ _
      | false =>
          cases hrel : begins ⟨.attrname, i.1⟩ (lit "rel") with
          | true =>
              simp only [if_true, Bool.false_eq_true, if_false, List.append_nil, List.any_append,
                List.any_cons, List.any_nil, Bool.or_false]
              cases saidLink s.baseUrl (values (lit "href") attrs) <;>
                simp [withLink, Bool.or_assoc]
          | false => simp

lemma opA_eq (s : HtmlLexer) (ts : List Token) :
    opA s ts = s.act (s.said (lit "a") (tagMap ts)) := by
  rw [opA, said, if_pos rfl]
  cases htext : s.getText with
  | true =>
      rw [if_pos rfl, if_pos rfl, forTokens_eq_foldl skipsOthers_opAToken readsLiterals_opAToken
        fun _ _ => rfl, foldl_opAToken]
  | false => simp [act, withLink, withRefresh, withFeed]

lemma foldl_opFrameToken (s : HtmlLexer) (attrs : List (Str × Str)) :
    attrs.foldl (fun s i => opFrameToken s ⟨.attrname, i.1⟩ (some ⟨.literal, i.2⟩)) s =
      s.withLink (saidLink s.baseUrl (values (lit "src") attrs)) := by
  induction attrs using List.reverseRecOn with
  | nil => rfl
  | append_singleton attrs i ih =>
      rw [List.foldl_append, ih, List.foldl_cons, List.foldl_nil, opFrameToken, values_concat]
      cases hsrc : begins ⟨.attrname, i.1⟩ (lit "src") with
      | true => exact withLink_concat s _ _
      | false => simp

lemma opFrame_eq (s : HtmlLexer) (ts : List Token) (htag : tag = lit "frame" ∨ tag = lit "iframe") :
    opFrame s ts = if s.getText then (s.act (s.said tag (tagMap ts))).wordBreak else s := by
  have ha : tag ≠ lit "a" := by rcases htag with rfl | rfl <;> decide
  rw [opFrame, said, if_neg ha, if_pos htag]
  cases htext : s.getText with
  | true =>
      rw [if_pos rfl, if_pos rfl, if_pos rfl, forTokens_eq_foldl skipsOthers_opFrameToken
        readsLiterals_opFrameToken fun _ _ => rfl, foldl_opFrameToken, act_link]
      simp
  | false => simp

lemma withFeed_feedOf (a : Analysis) (type href : Str) :
    withFeed a ((feedOf type).map fun feed => (feed, href)) =
      if iequals type (lit "application/rss+xml") then { a with rss2 := href }
      else if iequals type (lit "application/atom+xml") then { a with atom := href }
      else if iequals type (lit "text/xml") then { a with rss := href }
      else a := by
  rw [feedOf]
  split_ifs <;> rfl

lemma act_feed (s : HtmlLexer) (feed : Option (Feed × Str)) :
    s.act { feed := feed } = { s with analysis := withFeed s.analysis feed } := by
  rcases feed with _ | ⟨_ | _ | _, href⟩ <;> simp [act, withLink, withRefresh, withFeed]

/-- Only the warnings are not said. -/
lemma opLink_eq (s : HtmlLexer) (ts : List Token) :
    (opLink s ts).quiet = (s.act (s.said (lit "link") (tagMap ts))).quiet := by
  have hfind : ∀ k, tagFind ts k = attrFind (tagMap ts) k := fun _ => rfl
  rw [opLink, said, if_neg (by decide), if_neg (by decide), if_pos rfl, saidFeed, hfind, hfind,
    hfind]
  cases attrFind (tagMap ts) (lit "href") with
  | none => rw [act_feed]; rfl
  | some href =>
      cases attrFind (tagMap ts) (lit "rel") with
      | none => rw [act_feed]; rfl
      | some rel =>
          cases attrFind (tagMap ts) (lit "type") with
          | none => rw [act_feed]; rfl
          | some type =>
              dsimp only
              cases iequals rel (lit "alternate") with
              | true =>
                  rw [if_pos rfl, if_pos rfl, act_feed, withFeed_feedOf]
                  rfl
              | false =>
                  rw [if_neg Bool.false_ne_true, if_neg Bool.false_ne_true, act_feed]
                  rfl

lemma metaNameRobots_eq (a : Analysis) (toks : List Str) : metaNameRobots a toks =
    { a with index := (directives toks).1.getD a.index
             follow := (directives toks).2.getD a.follow } := by
  induction toks generalizing a with
  | nil => rfl
  | cons tok toks ih =>
      rw [metaNameRobots, directives]
      split_ifs
      all_goals first
        | rw [ih]
        | rfl
      all_goals cases (directives toks).1 <;> cases (directives toks).2 <;> rfl

lemma act_meta (s : HtmlLexer) (index follow : Option Bool) (charset refresh : Option Str) :
    s.act { index := index, follow := follow, charset := charset, refresh := refresh } =
      { s with analysis := { s.analysis with
          index := index.getD s.analysis.index
          follow := follow.getD s.analysis.follow
          charset := charset.getD s.analysis.charset } }.withRefresh refresh := by
  simp [act, withLink, withFeed]

/-- A reference that cannot be resolved gives no link. -/
lemma submitLink_linkAdd (s : HtmlLexer) (link : Str) :
    (s.linkAdd link).submitLink = s.withRefresh (some (target s.baseUrl link)) := by
  rw [linkAdd_eq, withRefresh]
  cases hlink : unresolved s.baseUrl link with
  | false => rfl
  | true =>
      have htarget : target s.baseUrl link = [] := by
        rw [unresolved, Bool.and_eq_true, Bool.not_eq_true', Bool.not_eq_true'] at hlink
        rw [target, hlink.1]
        cases hresolve : resolve s.baseUrl link with
        | error e => rfl
        | ok url => simp [hresolve, Except.isOk, Except.toBool] at hlink
      rw [htarget]
      rfl

lemma not_iequals_refresh {httpEquiv : Str} (h : iequals httpEquiv (lit "content-type") = true) :
    iequals httpEquiv (lit "refresh") = false := by
  rw [iequals, beq_iff_eq] at h
  rw [iequals, h]
  decide

lemma metaHttpEquiv_eq {httpEquiv : Str} (h : attrFind attrs (lit "http-equiv") = some httpEquiv)
    (s : HtmlLexer) : s.metaHttpEquiv httpEquiv (attrFind attrs (lit "content")) =
      { s with analysis := { s.analysis with
          charset := (saidCharset attrs).getD s.analysis.charset } }.withRefresh
        (saidRefresh s.baseUrl attrs) := by
  rw [metaHttpEquiv.eq_def, saidCharset, saidRefresh, h]
  cases attrFind attrs (lit "content") with
  | none => rfl
  | some content =>
      dsimp only
      cases htype : iequals httpEquiv (lit "content-type") with
      | true =>
          rw [not_iequals_refresh htype]
          cases charsetSearch content <;> rfl
      | false =>
          cases hrefresh : iequals httpEquiv (lit "refresh") with
          | true =>
              cases refreshSearch none content with
              | none => rfl
              | some m => exact submitLink_linkAdd s m
          | false => rfl

/-- The two parts of `op_meta`. -/
lemma opMeta_eq_elim (s : HtmlLexer) (ts : List Token) :
    opMeta s ts = (tagFind ts (lit "http-equiv")).elim (s.withRobots (saidRobots (tagMap ts)))
      fun httpEquiv => (s.withRobots (saidRobots (tagMap ts))).metaHttpEquiv httpEquiv
        (tagFind ts (lit "content")) := by
  have hfind : ∀ k, attrFind (tagMap ts) k = tagFind ts k := fun _ => rfl
  rw [opMeta, saidRobots, hfind, hfind]
  cases tagFind ts (lit "name") with
  | none => cases tagFind ts (lit "http-equiv") <;> rfl
  | some name =>
      cases tagFind ts (lit "content") with
      | none => cases tagFind ts (lit "http-equiv") <;> rfl
      | some content =>
          dsimp only
          cases iequals name (lit "robots") with
          | false => cases tagFind ts (lit "http-equiv") <;> rfl
          | true =>
              rw [if_pos rfl, if_pos rfl, metaNameRobots_eq]
              cases tagFind ts (lit "http-equiv") <;> rfl

lemma opMeta_eq (s : HtmlLexer) (ts : List Token) :
    opMeta s ts = s.act (s.said (lit "meta") (tagMap ts)) := by
  rw [opMeta_eq_elim, said, if_neg (by decide), if_neg (by decide), if_neg (by decide), if_pos rfl,
    act_meta]
  have hfind : ∀ k, tagFind ts k = attrFind (tagMap ts) k := fun _ => rfl
  cases h : tagFind ts (lit "http-equiv") with
  | none =>
      rw [hfind] at h
      have hcharset : saidCharset (tagMap ts) = none := by rw [saidCharset, h]
      have hrefresh : saidRefresh s.baseUrl (tagMap ts) = none := by rw [saidRefresh, h]
      rw [hcharset, hrefresh]
      rfl
  | some httpEquiv => exact metaHttpEquiv_eq h (s.withRobots _)

/-! ### Groups that say the same -/

/-- What is said depends on a flag and the base URL. -/
lemma said_congr {M : HtmlLexer} (htext : M.getText = s.getText) (hbase : M.baseUrl = s.baseUrl)
    (tag : Str) (attrs : List (Str × Str)) : M.said tag attrs = s.said tag attrs := by
  rw [said, said, htext, hbase]

/-- The callbacks look at nothing but what is said. -/
lemma quiet_reader_of_said {op : HtmlLexer → List Token → HtmlLexer} (hop : (tag, op) ∈ readers)
    (h : s.said tag (tagMap ts) = s.said tag (tagMap ts')) :
    (op s ts).quiet = (op s ts').quiet := by
  simp only [readers, List.mem_cons, Prod.mk.injEq, List.not_mem_nil, or_false] at hop
  rcases hop with ⟨rfl, rfl⟩ | ⟨rfl, rfl⟩ | ⟨rfl, rfl⟩ | ⟨rfl, rfl⟩ | ⟨rfl, rfl⟩
  · rw [opA_eq, opA_eq, h]
  · rw [opFrame_eq s ts (Or.inl rfl), opFrame_eq s ts' (Or.inl rfl), h]
  · rw [opFrame_eq s ts (Or.inr rfl), opFrame_eq s ts' (Or.inr rfl), h]
  · rw [opLink_eq, opLink_eq, h]
  · rw [opMeta_eq, opMeta_eq, h]

/-! ### Groups that say something else -/

/-- The base URL and the flag for text are the same. -/
def SameSetting (s M : HtmlLexer) : Prop := M.getText = s.getText ∧ M.baseUrl = s.baseUrl

/-- A lexer outside of links, with some text for the next one. -/
def outside (s : HtmlLexer) : HtmlLexer :=
  { s with inlink := false, linkNofollow := false, curlink := ⟨[], [0x61]⟩ }

lemma inlink_withLink (s : HtmlLexer) (l : Option (Str × Bool)) :
    (s.withLink l).inlink = (s.inlink || l.isSome) := by
  cases l <;> simp [withLink]

lemma linkNofollow_withLink (s : HtmlLexer) (l : Option (Str × Bool)) :
    (s.withLink l).linkNofollow = s.linkNofollow := by
  cases l <;> rfl

lemma curlink_withLink (s : HtmlLexer) (l : Option (Str × Bool)) : (s.withLink l).curlink =
    l.elim s.curlink fun link => ⟨link.1, if link.2 then [] else s.curlink.txt⟩ := by
  cases l <;> rfl

/-- The link is seen behind the tag. -/
lemma link_eq_of_outside {l l' : Option (Str × Bool)} {b b' : Bool}
    (hin : (s.outside.act { link := l, nofollow := b }).inlink =
      (s.outside.act { link := l', nofollow := b' }).inlink)
    (hlink : (s.outside.act { link := l, nofollow := b }).curlink =
      (s.outside.act { link := l', nofollow := b' }).curlink) : l = l' := by
  simp only [act_link, inlink_withLink, curlink_withLink, outside, Bool.false_or] at hin hlink
  rcases l with _ | ⟨url, dropped⟩ <;> rcases l' with _ | ⟨url', dropped'⟩
  · rfl
  · exact absurd hin (by simp)
  · exact absurd hin (by simp)
  · obtain ⟨rfl, htxt⟩ := Link.mk.inj hlink
    cases dropped <;> cases dropped' <;> simp_all

lemma inlink_wordBreak (s : HtmlLexer) : s.wordBreak.inlink = s.inlink := by
  rw [wordBreak, textWordBreak]
  split_ifs <;> rfl

lemma curlink_wordBreak (htext : s.getText = true) :
    s.wordBreak.curlink
      = if s.inlink then ⟨s.curlink.url, s.curlink.txt ++ lit " "⟩ else s.curlink := by
  rw [wordBreak, if_pos htext, textWordBreak]
  split_ifs <;> rfl

/-- The word break of a frame does not hide the link. -/
lemma link_eq_of_wordBreak {M M' : HtmlLexer} (htext : M.getText = true)
    (htext' : M'.getText = true) (h : M.wordBreak.quiet = M'.wordBreak.quiet) :
    M.inlink = M'.inlink ∧ M.curlink = M'.curlink := by
  have hin : M.wordBreak.inlink = M'.wordBreak.inlink := congrArg (fun M => M.quiet.inlink) h
  have hlink : M.wordBreak.curlink = M'.wordBreak.curlink := congrArg (fun M => M.quiet.curlink) h
  rw [inlink_wordBreak, inlink_wordBreak] at hin
  rw [curlink_wordBreak htext, curlink_wordBreak htext', ← hin] at hlink
  refine ⟨hin, ?_⟩
  split at hlink
  · obtain ⟨hurl, htxt⟩ := Link.mk.inj hlink
    exact congrArg₂ Link.mk hurl (List.append_cancel_right htxt)
  · exact hlink

/-- A feed is seen if another URL was there. -/
lemma feed_eq_of_withFeed {d d' : Option (Feed × Str)}
    (h : ∀ a, withFeed a d = withFeed a d') : d = d' := by
  have hsome : ∀ {f : Feed} {href : Str} {d' : Option (Feed × Str)},
      (∀ a, withFeed a (some (f, href)) = withFeed a d') → d' = some (f, href) := by
    intro f href d' h
    have hother := h { rss2 := 0x61 :: href, rss := 0x61 :: href, atom := 0x61 :: href }
    rcases d' with _ | ⟨f', href'⟩
    · cases f <;> simp [withFeed] at hother
    · cases f <;> cases f' <;> simp_all [withFeed]
  rcases d with _ | ⟨f, href⟩
  · rcases d' with _ | ⟨f', href'⟩
    · rfl
    · exact hsome fun a => (h a).symm
  · exact (hsome h).symm

lemma eq_of_getD {α : Type} {o o' : Option α} {a b : α} (hab : a ≠ b) (ha : o.getD a = o'.getD a)
    (hb : o.getD b = o'.getD b) : o = o' := by
  cases o <;> cases o' <;> simp_all

/-- A refresh is seen in the links, or because the link before it is gone. -/
lemma refresh_eq_of_withRefresh {r r' : Option Str} (hs : s.curlink ≠ {})
    (hout : (s.withRefresh r).lnkout = (s.withRefresh r').lnkout)
    (hlink : (s.withRefresh r).curlink = (s.withRefresh r').curlink) : r = r' := by
  rcases r with _ | url <;> rcases r' with _ | url'
  · rfl
  · exact absurd hlink hs
  · exact absurd hlink.symm hs
  · cases url <;> cases url' <;> simp_all [withRefresh, submitLink]

lemma said_eq_of_opA (h : ∀ M, SameSetting s M → (opA M ts).quiet = (opA M ts').quiet) :
    s.said (lit "a") (tagMap ts) = s.said (lit "a") (tagMap ts') := by
  have hact : (s.outside.act (s.said (lit "a") (tagMap ts))).quiet =
      (s.outside.act (s.said (lit "a") (tagMap ts'))).quiet := by
    have heq := h s.outside ⟨rfl, rfl⟩
    rwa [opA_eq, opA_eq] at heq
  rw [said, if_pos rfl, said, if_pos rfl] at hact ⊢
  cases htext : s.getText with
  | false => rfl
  | true =>
      rw [htext, if_pos rfl, if_pos rfl] at hact
      have hlink := link_eq_of_outside (congrArg (fun M => M.quiet.inlink) hact)
        (congrArg (fun M => M.quiet.curlink) hact)
      have hnofollow := congrArg (fun M => M.quiet.linkNofollow) hact
      simp only [quiet, act_link, linkNofollow_withLink, outside, Bool.false_or] at hnofollow
      rw [if_pos rfl, if_pos rfl, hlink, hnofollow]

lemma getText_withLink (s : HtmlLexer) (l : Option (Str × Bool)) :
    (s.withLink l).getText = s.getText := by
  cases l <;> rfl

lemma said_eq_of_opFrame (htag : tag = lit "frame" ∨ tag = lit "iframe")
    (h : ∀ M, SameSetting s M → (opFrame M ts).quiet = (opFrame M ts').quiet) :
    s.said tag (tagMap ts) = s.said tag (tagMap ts') := by
  have ha : tag ≠ lit "a" := by rcases htag with rfl | rfl <;> decide
  have hframe := h s.outside ⟨rfl, rfl⟩
  have hsame : ∀ attrs, s.outside.said tag attrs = s.said tag attrs := fun _ => rfl
  rw [opFrame_eq _ ts htag, opFrame_eq _ ts' htag, hsame, hsame] at hframe
  rw [said, if_neg ha, if_pos htag, said, if_neg ha, if_pos htag] at hframe ⊢
  cases htext : s.getText with
  | false => rfl
  | true =>
      have htext' : s.outside.getText = true := htext
      rw [htext', htext, if_pos rfl, if_pos rfl, if_pos rfl, if_pos rfl] at hframe
      have hget : ∀ l, (s.outside.act { link := l }).getText = true := fun l =>
        (getText_withLink _ l).trans htext
      obtain ⟨hin, hlink⟩ := link_eq_of_wordBreak (hget _) (hget _) hframe
      rw [if_pos rfl, if_pos rfl, link_eq_of_outside hin hlink]

lemma said_eq_of_opLink (h : ∀ M, SameSetting s M → (opLink M ts).quiet = (opLink M ts').quiet) :
    s.said (lit "link") (tagMap ts) = s.said (lit "link") (tagMap ts') := by
  have hfeed : ∀ a, withFeed a (saidFeed s.baseUrl (tagMap ts)) =
      withFeed a (saidFeed s.baseUrl (tagMap ts')) := by
    intro a
    have heq := h { s with analysis := a } ⟨rfl, rfl⟩
    rw [opLink_eq, opLink_eq] at heq
    have hanalysis := congrArg (fun M => M.quiet.analysis) heq
    have hsaid : ∀ attrs, ({ s with analysis := a } : HtmlLexer).said (lit "link") attrs =
        { feed := saidFeed s.baseUrl attrs } := fun attrs => by
      rw [said, if_neg (by decide), if_neg (by decide), if_pos rfl]
    rw [hsaid, hsaid, act_feed, act_feed] at hanalysis
    exact hanalysis
  rw [said, if_neg (by decide), if_neg (by decide), if_pos rfl, said, if_neg (by decide),
    if_neg (by decide), if_pos rfl, feed_eq_of_withFeed hfeed]

lemma analysis_withRefresh (s : HtmlLexer) (r : Option Str) :
    (s.withRefresh r).analysis = s.analysis := by
  cases r <;> rfl

lemma said_eq_of_opMeta (h : ∀ M, SameSetting s M → (opMeta M ts).quiet = (opMeta M ts').quiet) :
    s.said (lit "meta") (tagMap ts) = s.said (lit "meta") (tagMap ts') := by
  have hsaid : ∀ attrs, s.said (lit "meta") attrs =
      { index := (saidRobots attrs).1, follow := (saidRobots attrs).2, charset := saidCharset attrs
        refresh := saidRefresh s.baseUrl attrs } := fun attrs => by
    rw [said, if_neg (by decide), if_neg (by decide), if_neg (by decide), if_pos rfl]
  have hact : ∀ a, (({ s.outside with analysis := a } : HtmlLexer).act
        (s.said (lit "meta") (tagMap ts))).quiet =
      (({ s.outside with analysis := a } : HtmlLexer).act
        (s.said (lit "meta") (tagMap ts'))).quiet := by
    intro a
    have heq := h { s.outside with analysis := a } ⟨rfl, rfl⟩
    rwa [opMeta_eq, opMeta_eq] at heq
  simp only [hsaid, act_meta] at hact ⊢
  have hanalysis : ∀ a, _ := fun a => congrArg (fun M => M.quiet.analysis) (hact a)
  simp only [quiet, analysis_withRefresh, Analysis.mk.injEq, true_and] at hanalysis
  have htrue := hanalysis { index := true, follow := true }
  have hfalse := hanalysis { index := false, follow := false, charset := [0x61] }
  have hindex := eq_of_getD (by simp) htrue.2.1 hfalse.2.1
  have hfollow := eq_of_getD (by simp) htrue.2.2 hfalse.2.2
  have hcharset := eq_of_getD (by simp) htrue.1 hfalse.1
  have hrefresh := hact s.analysis
  rw [hindex, hfollow, hcharset] at hrefresh ⊢
  have hsame := refresh_eq_of_withRefresh (by simp [outside])
    (congrArg (fun M => M.quiet.lnkout) hrefresh) (congrArg (fun M => M.quiet.curlink) hrefresh)
  rw [hsame]

/-- Start tags that are processed alike by every lexer with the same setting say the same. -/
lemma said_eq_of_process (h : ∀ M, SameSetting s M →
    (M.process (⟨.start, tag⟩ :: ts)).quiet = (M.process (⟨.start, tag⟩ :: ts')).quiet) :
    s.said tag (tagMap ts) = s.said tag (tagMap ts') := by
  have hmap : ∀ ts, tagMap (⟨.start, tag⟩ :: ts) = tagMap ts := fun ts =>
    tagMap_cons_of_type_ne (by simp)
  rw [← hmap ts, ← hmap ts']
  by_cases ha : tag = lit "a"
  · subst ha
    exact said_eq_of_opA h
  by_cases hframe : tag = lit "frame" ∨ tag = lit "iframe"
  · refine said_eq_of_opFrame hframe fun M hM => ?_
    rcases hframe with rfl | rfl
    · exact h M hM
    · exact h M hM
  by_cases hlink : tag = lit "link"
  · subst hlink
    exact said_eq_of_opLink h
  by_cases hmeta : tag = lit "meta"
  · subst hmeta
    exact said_eq_of_opMeta h
  · simp only [said, if_neg ha, if_neg hframe, if_neg hlink, if_neg hmeta]

/-- What start tags say is what lexers with the same setting can tell them apart by. -/
theorem said_eq_iff : s.said tag (tagMap ts) = s.said tag (tagMap ts') ↔ ∀ M, SameSetting s M →
    (M.process (⟨.start, tag⟩ :: ts)).quiet = (M.process (⟨.start, tag⟩ :: ts')).quiet := by
  refine ⟨fun h M hM => ?_, said_eq_of_process⟩
  refine process_congr quiet rfl fun x op hhead hop => quiet_reader_of_said hop ?_
  obtain rfl : tag = x := congrArg Token.content (Option.some.inj hhead)
  rw [tagMap_cons_of_type_ne (by simp), tagMap_cons_of_type_ne (by simp), said_congr hM.1 hM.2,
    said_congr hM.1 hM.2, h]

end HtmlLexer

end Mycelium
