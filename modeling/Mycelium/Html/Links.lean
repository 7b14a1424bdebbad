import Mycelium.Html.Callbacks
import Mycelium.Lib.Machine

/-!
# The links of a document

A link is put together by three callbacks: the start tag of an anchor sets the URL and the flags,
character data is appended to the text while the flag `FLAG_INLINK` is set, and the end tag writes
the link.  Between them the link lives in `curlink`, which is cleared only when a link is written.

A document of anchors with character data in and between them is a sequence of items.  Each item is
one input of a machine, which answers with the links that are written for it.
-/

namespace Mycelium

open Lib

/-! ### Documents of anchors -/

/-- An anchor that holds character data only. -/
structure Anchor where
  attrs : List (Str × Str)
  nodup : (attrs.map Prod.fst).Nodup
  data : List Str
  /-- The token at the end of the start tag; there is none if the tag is not closed. -/
  startClose : Option Str := some (lit ">")
  /-- The token at the end of the end tag. -/
  endClose : Option Str := some (lit ">")
deriving DecidableEq

namespace Anchor

/-- The tokens of the attributes. -/
def attrTokens (attrs : List (Str × Str)) : List Token :=
  attrs.flatMap fun a => [⟨.attrname, a.1⟩, ⟨.literal, a.2⟩]

/-- The token at the end of a tag. -/
def closing (close : Option Str) : List Token := close.toList.map fun c => ⟨.tagc, c⟩

def startTag (a : Anchor) : List Token :=
  ⟨.start, lit "a"⟩ :: (attrTokens a.attrs ++ closing a.startClose)

def endTag (a : Anchor) : List Token := ⟨.end_, lit "a"⟩ :: closing a.endClose

/-- The groups of tokens that are passed to `process`. -/
def groups (a : Anchor) : List (List Token) :=
  a.startTag :: (a.data.map (fun d => [⟨.data, d⟩]) ++ [a.endTag])

/-- The URL to follow: that of the attribute `href`, if there is one, it is not empty, and the
attribute `rel` does not ask not to follow it. -/
def followed (a : Anchor) : Option Str :=
  (a.attrs.lookup (lit "href")).filter fun url =>
    !url.isEmpty && !(a.attrs.lookup (lit "rel")).any HtmlLexer.relNofollow

/-- The links that the anchor stands for. -/
def links (a : Anchor) : List Link := a.followed.toList.map fun url => ⟨url, a.data.flatten⟩

lemma ne_nil_of_followed (a : Anchor) {url : Str} (h : a.followed = some url) : url ≠ [] := by
  have hfilter := (Option.filter_eq_some_iff.1 h).2
  rintro rfl
  exact absurd hfilter (by simp)

/-- The values of the attributes whose name begins with `word`. -/
def beginning (word : Str) (attrs : List (Str × Str)) : List Str :=
  (attrs.filter fun a => a.1.take word.length = word).map Prod.snd

end Anchor

/-- A piece of a document. -/
inductive Item where
  | anchor (a : Anchor)
  | data (text : Str)
deriving DecidableEq

namespace Item

def groups : Item → List (List Token)
  | anchor a => a.groups
  | data text => [[⟨.data, text⟩]]

def links : Item → List Link
  | anchor a => a.links
  | data _ => []

end Item

namespace HtmlLexer

open Anchor

variable {s t : HtmlLexer} {a : Anchor} {l : List (Item × List Link)}

/-- The lexer works through one item; the answer is what it has written to `lnkout`. -/
def machine : Machine HtmlLexer Item (List Link) where
  exec s i :=
    let t := i.groups.foldl process s
    some (t.lnkout.drop s.lnkout.length, t)

/-- A new lexer that takes the text of the whole document and has no base URL. -/
def start : HtmlLexer := { getText := true }

/-! ### The start tag -/

/-- What the attributes of a start tag do without a base URL: the last one that begins with "href"
gives the URL. -/
def enter (s : HtmlLexer) (attrs : List (Str × Str)) : HtmlLexer :=
  { s with
    curlink := { s.curlink with url := (beginning (lit "href") attrs).getLastD s.curlink.url }
    inlink := s.inlink || !(beginning (lit "href") attrs).isEmpty
    linkNofollow := s.linkNofollow || (beginning (lit "rel") attrs).any relNofollow }

lemma beginning_cons (word n v : Str) (attrs : List (Str × Str)) :
    beginning word ((n, v) :: attrs) =
      if n.take word.length = word then v :: beginning word attrs else beginning word attrs := by
  unfold beginning
  split_ifs with h <;> simp [h]

/-- No name begins with both words. -/
lemma take_rel_ne {n : Str} (h : n.take (lit "href").length = lit "href") :
    n.take (lit "rel").length ≠ lit "rel" := by
  intro hrel
  have htake : (n.take 4).take 3 = n.take 3 := by rw [List.take_take]; rfl
  have h4 : n.take 4 = lit "href" := h
  have h3 : n.take 3 = lit "rel" := hrel
  rw [h4, h3] at htake
  exact absurd htake (by decide)

lemma opAToken_attr (hs : s.baseUrl.empty = true) (n v : Str) :
    opAToken s ⟨.attrname, n⟩ (some ⟨.literal, v⟩) = s.enter [(n, v)] := by
  have hnil : ∀ word, beginning word [] = [] := fun _ => rfl
  simp only [opAToken, begins, linkAdd, hs, enter, beginning_cons, hnil]
  by_cases hhref : n.take (lit "href").length = lit "href"
  · simp [hhref, take_rel_ne hhref]
  · by_cases hrel : n.take (lit "rel").length = lit "rel" <;> simp [hhref, hrel]

lemma enter_cons (n v : Str) (attrs : List (Str × Str)) :
    (s.enter [(n, v)]).enter attrs = s.enter ((n, v) :: attrs) := by
  have hnil : ∀ word, beginning word [] = [] := fun _ => rfl
  simp only [enter, beginning_cons, hnil]
  split_ifs <;> simp only [List.getLastD_cons, List.getLastD_nil, List.isEmpty_cons,
    List.isEmpty_nil, List.any_cons, List.any_nil, Bool.or_assoc, Bool.or_false, Bool.not_false,
    Bool.not_true, Bool.or_true, Bool.true_or]

lemma forTokens_attrTokens (hs : s.baseUrl.empty = true) (attrs : List (Str × Str))
    (close : Option Str) :
    forTokens opAToken s (attrTokens attrs ++ closing close) = s.enter attrs := by
  induction attrs generalizing s with
  | nil =>
      have hnil : s.enter [] = s := by simp [enter, beginning]
      cases close with
      | none => exact hnil.symm
      | some c =>
          rw [hnil]
          exact skipsOthers_opAToken s ⟨.tagc, c⟩ none (by simp)
  | cons x attrs ih =>
      obtain ⟨n, v⟩ := x
      simp only [attrTokens, List.flatMap_cons, List.cons_append, List.nil_append, forTokens,
        List.head?_cons]
      rw [opAToken_attr hs, skipsOthers_opAToken _ _ _ (by simp), ← enter_cons n v attrs]
      exact ih (s := s.enter [(n, v)]) hs

/-- The start tag of an anchor. -/
lemma process_startTag (hs : s.baseUrl.empty = true) (hget : s.getText = true) :
    process s a.startTag = s.enter a.attrs := by
  calc process s a.startTag = opA s a.startTag := rfl
    _ = forTokens opAToken s (attrTokens a.attrs ++ closing a.startClose) := by
        simp only [opA, hget, if_true, startTag, forTokens]
        rw [skipsOthers_opAToken _ _ _ (by simp)]
    _ = s.enter a.attrs := forTokens_attrTokens hs a.attrs a.startClose

/-! ### Character data -/

/-- Character data changes the text of a link and what belongs to the text of the document. -/
lemma foldl_process_data (hget : s.getText = true) (data : List Str) :
    ∃ analysis txtout didWordBreak,
      (data.map fun d => [⟨.data, d⟩]).foldl process s =
        { s with
          curlink :=
            { s.curlink with
              txt := if s.inlink then s.curlink.txt ++ data.flatten else s.curlink.txt }
          analysis := analysis, txtout := txtout, didWordBreak := didWordBreak } := by
  induction data generalizing s with
  | nil => exact ⟨s.analysis, s.txtout, s.didWordBreak, by simp⟩
  | cons d data ih =>
      rw [List.map_cons, List.foldl_cons]
      have hd : process s [⟨.data, d⟩] = if s.inlink then s.linkTextAdd d else s.textAdd d := by
        simp [process, hget]
      rw [hd]
      by_cases hin : s.inlink = true
      · rw [if_pos hin]
        obtain ⟨analysis, txtout, didWordBreak, h⟩ := ih (s := s.linkTextAdd d) hget
        refine ⟨analysis, txtout, didWordBreak, h.trans ?_⟩
        simp [linkTextAdd, textAdd, hin]
      · rw [if_neg hin]
        obtain ⟨analysis, txtout, didWordBreak, h⟩ := ih (s := s.textAdd d) hget
        refine ⟨analysis, txtout, didWordBreak, h.trans ?_⟩
        simp [textAdd, hin]

/-! ### The end tag -/

/-- The state between two items. -/
structure Between (s : HtmlLexer) : Prop where
  base : s.baseUrl.empty = true
  getText : s.getText = true
  inlink : s.inlink = false
  nofollow : s.linkNofollow = false

lemma between_opAC (hs : s.baseUrl.empty = true) (hget : s.getText = true) (group : List Token) :
    Between (opAC s group) := by
  unfold opAC
  split_ifs with hno hin
  · exact ⟨hs, hget, rfl, rfl⟩
  · exact ⟨hs, hget, rfl, by simpa [submitLink] using hno⟩
  · exact ⟨hs, hget, by simpa using hin, by simpa using hno⟩

lemma lnkout_opAC (group : List Token) :
    (opAC s group).lnkout = s.lnkout ++
      if s.linkNofollow || !s.inlink || s.curlink.url.isEmpty then [] else [s.curlink] := by
  unfold opAC
  split_ifs <;> simp_all [submitLink]

/-! ### One anchor -/

/-- The URL that the callbacks follow: they go by the beginning of the names. -/
def taken (a : Anchor) : Option Str :=
  (beginning (lit "href") a.attrs).getLast?.filter fun url =>
    !url.isEmpty && !(beginning (lit "rel") a.attrs).any relNofollow

lemma taken_eq_some_iff {url : Str} :
    taken a = some url ↔ (beginning (lit "href") a.attrs).getLast? = some url ∧ url ≠ [] ∧
      ∀ content ∈ beginning (lit "rel") a.attrs, relNofollow content = false := by
  simp [taken, Option.filter_eq_some_iff]

lemma taken_eq_none_iff :
    taken a = none ↔ (∃ content ∈ beginning (lit "rel") a.attrs, relNofollow content = true) ∨
      ∀ url ∈ (beginning (lit "href") a.attrs).getLast?, url = [] := by
  cases hrel : (beginning (lit "rel") a.attrs).any relNofollow with
  | true => simp [taken, hrel, ← List.any_eq_true]
  | false => simp [taken, hrel, ← List.any_eq_true]

/-- An anchor writes its link with the text that `curlink` had before in front of its own. -/
lemma foldl_process_anchor (hs : Between s) (a : Anchor) :
    Between (a.groups.foldl process s) ∧
      (a.groups.foldl process s).lnkout = s.lnkout ++
        (taken a).toList.map fun url => ⟨url, s.curlink.txt ++ a.data.flatten⟩ := by
  obtain ⟨analysis, txtout, didWordBreak, hdata⟩ :=
    foldl_process_data (s := s.enter a.attrs) hs.getText a.data
  have hgroups : a.groups.foldl process s =
      opAC ((a.data.map fun d => [⟨.data, d⟩]).foldl process (s.enter a.attrs)) a.endTag := by
    rw [groups, List.foldl_cons, List.foldl_append, process_startTag hs.base hs.getText]
    rfl
  rw [hgroups, hdata]
  refine ⟨by apply between_opAC <;> simp [enter, hs.base, hs.getText], ?_⟩
  rw [lnkout_opAC]
  simp only [enter, hs.inlink, hs.nofollow, Bool.false_or, taken]
  rcases List.eq_nil_or_concat' (beginning (lit "href") a.attrs) with hhref | ⟨urls, url, hhref⟩
  · simp [hhref]
  · by_cases hurl : url = [] <;>
      cases hrel : (beginning (lit "rel") a.attrs).any relNofollow <;>
        simp [hhref, hurl, Option.filter]

/-- The items whose links come out right in a state of the lexer.  For an anchor that is to be
followed, the last attribute that begins with "href" is to have the URL, no attribute that begins
with "rel" is to say nofollow, and no text is to be left in `curlink`.  For another anchor, some
attribute that begins with "rel" is to say nofollow, or the last one that begins with "href", if
there is one, is to be empty. -/
def Orderly (s : HtmlLexer) : Item → Prop
  | .anchor a =>
      (∀ url ∈ a.followed, (beginning (lit "href") a.attrs).getLast? = some url ∧
        (∀ content ∈ beginning (lit "rel") a.attrs, relNofollow content = false) ∧
        s.curlink.txt = []) ∧
      (a.followed = none →
        (∃ content ∈ beginning (lit "rel") a.attrs, relNofollow content = true) ∨
          ∀ url ∈ (beginning (lit "href") a.attrs).getLast?, url = [])
  | .data _ => True

instance decidableOrderly (s : HtmlLexer) : ∀ i, Decidable (Orderly s i)
  | .anchor _ => inferInstanceAs (Decidable (_ ∧ _))
  | .data _ => inferInstanceAs (Decidable True)

lemma orderly_anchor_iff :
    Orderly s (.anchor a) ↔ taken a = a.followed ∧ (a.followed.isSome → s.curlink.txt = []) := by
  cases hfollowed : a.followed with
  | none => simp [Orderly, hfollowed, taken_eq_none_iff]
  | some url =>
      have hurl : url ≠ [] := a.ne_nil_of_followed hfollowed
      simp [Orderly, hfollowed, taken_eq_some_iff, hurl, and_assoc]

lemma beginning_eq_toList_lookup {word : Str} {attrs : List (Str × Str)}
    (hnodup : (attrs.map Prod.fst).Nodup)
    (h : ∀ x ∈ attrs, x.1.take word.length = word → x.1 = word) :
    beginning word attrs = (attrs.lookup word).toList := by
  induction attrs with
  | nil => rfl
  | cons x attrs ih =>
      obtain ⟨n, v⟩ := x
      rw [List.map_cons, List.nodup_cons] at hnodup
      have hrest := ih hnodup.2 fun y hy => h y (List.mem_cons_of_mem _ hy)
      by_cases hn : n = word
      · subst hn
        have hnone : attrs.lookup n = none := by
          rw [List.lookup_eq_none_iff]
          rintro y hy
          exact bne_iff_ne.2 fun hyn => hnodup.1 (List.mem_map.2 ⟨y, hy, hyn.symm⟩)
        rw [beginning_cons, if_pos (List.take_length), hrest, hnone]
        simp
      · have htake : n.take word.length ≠ word := fun hw => hn (h (n, v) (by simp) hw)
        rw [beginning_cons, if_neg htake, hrest, List.lookup_cons, beq_false_of_ne (Ne.symm hn)]

/-- Where no other attribute begins with "href" or "rel", only text that is left in `curlink` can
spoil an anchor. -/
theorem orderly_of_names
    (hhref : ∀ x ∈ a.attrs, x.1.take (lit "href").length = lit "href" → x.1 = lit "href")
    (hrel : ∀ x ∈ a.attrs, x.1.take (lit "rel").length = lit "rel" → x.1 = lit "rel")
    (htxt : s.curlink.txt = []) : Orderly s (.anchor a) := by
  refine orderly_anchor_iff.2 ⟨?_, fun _ => htxt⟩
  rw [taken, beginning_eq_toList_lookup a.nodup hhref, beginning_eq_toList_lookup a.nodup hrel,
    followed]
  cases a.attrs.lookup (lit "href") <;> cases a.attrs.lookup (lit "rel") <;> simp

/-- One item, from a state between two items. -/
lemma exec_item {i : Item} {o : List Link} (hs : Between s)
    (h : machine.exec s i = some (o, t)) :
    Between t ∧ t.lnkout = s.lnkout ++ o ∧ (o = i.links ↔ Orderly s i) := by
  obtain ⟨ho, rfl⟩ := Prod.mk.inj (Option.some.inj h)
  cases i with
  | anchor a =>
      obtain ⟨hbetween, hlnkout⟩ := foldl_process_anchor hs a
      rw [Item.groups, hlnkout, List.drop_left] at ho
      subst ho
      refine ⟨hbetween, hlnkout, ?_⟩
      rw [orderly_anchor_iff, Item.links, Anchor.links]
      cases taken a <;> cases a.followed <;> simp
  | data text =>
      obtain ⟨analysis, txtout, didWordBreak, hdata⟩ := foldl_process_data hs.getText [text]
      have hgroups : (Item.data text).groups = [text].map fun d => [⟨.data, d⟩] := rfl
      rw [hgroups, hdata] at ho ⊢
      simp only [List.drop_length] at ho
      subst ho
      exact ⟨⟨hs.base, hs.getText, hs.inlink, hs.nofollow⟩, by simp, by simp [Item.links, Orderly]⟩

/-! ### Documents -/

lemma between_start : Between start := ⟨rfl, rfl, rfl, rfl⟩

/-- The links of a document are those of its anchors, one for each anchor that is to be followed
and in order, if every item is orderly in the state that it is worked through in; and an item that
is not orderly has other links than it should. -/
theorem links_iff_orderly (h : machine.Run Machine.Free start l t) :
    ((∀ p ∈ l, p.2 = p.1.links) ↔ machine.Run Orderly start l t) ∧
      (machine.Run Orderly start l t → t.lnkout = l.flatMap fun p => p.1.links) := by
  constructor
  · refine h.forall_iff (I := Between) ?_ between_start
    intro s i o t hs _ hexec
    obtain ⟨ht, -, hiff⟩ := exec_item hs hexec
    exact ⟨ht, hiff⟩
  · intro hrun
    refine hrun.log_eq (I := Between) lnkout (fun p => p.1.links) ?_ between_start
    intro s i o t hs hi hexec
    obtain ⟨ht, hlnkout, hiff⟩ := exec_item hs hexec
    exact ⟨ht, by rw [hlnkout, hiff.2 hi]⟩

/-- An anchor with an attribute besides `href` that begins with it, and one that asks not to be
followed before one that is to be followed. -/
def language : Anchor where
  attrs := [(lit "href", lit "/x"), (lit "hreflang", lit "en")]
  nodup := by decide
  data := [lit "text"]

def advert : Anchor where
  attrs := [(lit "href", lit "/ad"), (lit "rel", lit "nofollow")]
  nodup := by decide
  data := [lit "buy "]

def page : Anchor where
  attrs := [(lit "href", lit "/p")]
  nodup := by decide
  data := [lit "more"]

theorem links_iff_orderly_page :
    ∃ l t, machine.Run Orderly start l t ∧ t.lnkout = [⟨lit "/p", lit "more"⟩] := by
  obtain ⟨l, t, hrun, hp⟩ := Machine.exists_run_of_any (M := machine.guard Orderly) (s := start)
    (G := Machine.Free) (p := fun x => x.1.flatMap (fun p => p.1.links) == [⟨lit "/p", lit "more"⟩])
    [.anchor page, .data (lit " "), .anchor advert] (fun _ _ _ => trivial) (by decide)
  have hrun' := Machine.run_of_guard hrun
  have hfree : machine.Run Machine.Free start l t := hrun'.mono fun _ _ _ => trivial
  exact ⟨l, t, hrun', by rw [(links_iff_orderly hfree).2 hrun']; simpa using hp⟩

/-- The run over some items that is computed, with what it writes and what the items stand for. -/
lemma exists_run (items : List Item) {out links : List Link}
    (h : (machine.runs start items).any (fun x => x.1.map Prod.fst = items ∧ x.2.lnkout = out ∧
      (x.1.flatMap fun p => p.1.links) = links) = true) :
    ∃ l t, machine.Run Machine.Free start l t ∧ l.map Prod.fst = items ∧ t.lnkout = out ∧
      (l.flatMap fun p => p.1.links) = links := by
  obtain ⟨l, t, hrun, hp⟩ :=
    Machine.exists_run_of_any (G := Machine.Free) items (fun _ _ _ => trivial) h
  exact ⟨l, t, hrun, of_decide_eq_true hp⟩

theorem not_links_of_anchors :
    (∃ l t, machine.Run Machine.Free start l t ∧ l.map Prod.fst = [.anchor language] ∧
      t.lnkout = [⟨lit "en", lit "text"⟩] ∧
      (l.flatMap fun p => p.1.links) = [⟨lit "/x", lit "text"⟩]) ∧
    ∃ l t, machine.Run Machine.Free start l t ∧
      l.map Prod.fst = [.anchor advert, .data (lit " "), .anchor page] ∧
      t.lnkout = [⟨lit "/p", lit "buy more"⟩] ∧
      (l.flatMap fun p => p.1.links) = [⟨lit "/p", lit "more"⟩] :=
  ⟨exists_run _ (by decide), exists_run _ (by decide)⟩

end HtmlLexer

end Mycelium
