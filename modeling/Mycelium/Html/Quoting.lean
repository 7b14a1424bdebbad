import Mycelium.Html.Respacing
import Mycelium.Html.StartTags

/-!
# Quotes around attribute values

A value of name characters can be written with quotes, or without them and with a blank behind it.
The scanner takes the first for a literal and the second for a name token.  It scans everything in
front of the attribute in the same way, and comes to the same point behind it.

The callbacks look at literals only.  So an attribute without quotes is as good as none, and the
quotes make a difference for the start tags that say something else without the attribute, and for
no others.
-/

namespace Mycelium

open Lib

namespace Html

/-- An attribute with quotes around its value. -/
def quotedAttr (n v : Str) : Str := n ++ 0x3D :: 0x22 :: (v ++ [0x22])

/-- The content of the value in quotes.  A tab behind the quotes keeps the last of them. -/
def quotedValue (v w : Str) : Str := unquote (0x22 :: (v ++ 0x22 :: w.takeWhile isWhite))

/-- An attribute with a blank behind its value. -/
def bareAttr (n v : Str) : Str := n ++ 0x3D :: (v ++ [0x20])

variable {e : EntityHandler} {c : Cond} {a b : UInt8} {n t u v w x y : Str}

/-! ### In front of the attribute -/

lemma notMem_of_nameToken (hv : nameToken.Matches v) (hb : isNameChar b = false) : b ∉ v :=
  fun hmem => ne_of_isNameChar ((Regex.matches_plus_cls_iff.1 hv).2 b hmem) hb rfl

lemma notMem_of_white (hw : White w) (hb : isWhite b = false) : b ∉ w := fun hmem => by
  rw [hw b hmem] at hb
  exact absurd hb (by simp)

/-- A piece with a byte that is not in the value reaches behind the blank. -/
lemma exists_behind_blank (hv : nameToken.Matches v) (hb : isNameChar b = false) (hblank : b ≠ 0x20)
    (h : t ++ b :: u <+: v ++ 0x20 :: w) :
    ∃ t', t = v ++ 0x20 :: t' ∧ t' ++ b :: u <+: w := by
  obtain ⟨r, hr⟩ := h
  have hnot : b ∉ v ++ [0x20] := by
    rw [List.mem_append, not_or, List.mem_singleton]
    exact ⟨notMem_of_nameToken hv hb, hblank⟩
  have heq : t ++ b :: (u ++ r) = (v ++ [0x20]) ++ w := by simpa using hr
  obtain ⟨t', rfl, rfl⟩ := exists_of_append_cons_eq_append heq hnot
  exact ⟨t', by simp, ⟨r, by simp⟩⟩

lemma matches_attrname_iff : Label.attrname.pattern.Matches x ↔
    ∃ m sp, Label.name.pattern.Matches m ∧ White sp ∧ x = m ++ 0x3D :: sp := by
  simp only [Label.pattern, Regex.cat, Regex.chr, Regex.matches_seq_iff, Regex.matches_cls_iff,
    matches_ws_iff, beq_iff_eq]
  constructor
  · rintro ⟨m, _, hm, ⟨sp, _, hsp, ⟨_, sp', ⟨d, rfl, rfl⟩, hsp', rfl⟩, rfl⟩, rfl⟩
    exact ⟨m ++ sp, sp', ⟨m, sp, hm, hsp, rfl⟩, hsp', by simp⟩
  · rintro ⟨_, sp', ⟨m, sp, hm, hsp, rfl⟩, hsp', rfl⟩
    exact ⟨m, _, hm, ⟨sp, _, hsp, ⟨_, sp', ⟨_, rfl, rfl⟩, hsp', rfl⟩, rfl⟩, by simp⟩

/-- There is one equals sign in the text in front of an attribute value. -/
lemma matches_attrname_append_iff : Label.attrname.pattern.Matches (x ++ 0x3D :: t) ↔
    Label.name.pattern.Matches x ∧ White t := by
  rw [matches_attrname_iff]
  constructor
  · rintro ⟨m, sp, hm, hsp, heq⟩
    have heq' : x ++ 0x3D :: t = m ++ ([0x3D] ++ sp) := heq
    obtain ⟨s₁, s₂, hs, rfl, rfl⟩ := exists_of_append_cons_eq_append_append heq'
      (hm.notMem (by decide)) (notMem_of_white hsp (by decide))
    obtain ⟨rfl, rfl⟩ : s₁ = [] ∧ s₂ = [] := by
      cases s₁ with
      | nil => exact ⟨rfl, (List.cons.inj hs).2.symm⟩
      | cons d s₁ => exact absurd hs (by simp)
    exact ⟨by simpa using hm, hsp⟩
  · rintro ⟨hx, ht⟩
    exact ⟨x, t, hx, ht, rfl⟩

lemma matches_pi_iff : Label.pi.pattern.Matches x ↔ ∃ s, 0x3E ∉ s ∧ x = pio ++ (s ++ pic) := by
  simp only [Label.pattern, Regex.cat, Regex.matches_seq_iff, matches_delim_iff,
    Regex.matches_star_cls_iff, forall_bne_iff]
  constructor
  · rintro ⟨_, _, rfl, ⟨s, _, hs, rfl, rfl⟩, rfl⟩
    exact ⟨s, hs, rfl⟩
  · rintro ⟨s, hs, rfl⟩
    exact ⟨_, _, rfl, ⟨s, _, hs, rfl, rfl⟩, rfl⟩

/-- A text between delimiters that is open at the attribute is closed behind it. -/
lemma exists_delimited {o s d : Str} {q : UInt8} (hv : nameToken.Matches v)
    (ht : t <+: v ++ 0x20 :: w) (ho : 0x3D ∉ o) (hd : 0x3D ∉ q :: d) (hq : isNameChar q = false)
    (hblank : q ≠ 0x20) (hb : b ≠ 0x22) (hs : b ∉ s)
    (h : y ++ n ++ 0x3D :: t = o ++ (s ++ q :: d)) :
    ∃ r, r ≠ [] ∧ r <+: quotedAttr n v ++ w ∧ ∃ s', b ∉ s' ∧ y ++ r = o ++ (s' ++ q :: d) := by
  obtain ⟨s₁, s₂, rfl, hy, rfl⟩ := exists_of_append_cons_eq_append_append h ho hd
  obtain ⟨r, rfl, hr⟩ := exists_behind_blank hv hq hblank ht
  refine ⟨quotedAttr n v ++ (r ++ q :: d), by simp [quotedAttr],
    (List.prefix_append_right_inj _).2 hr, s₁ ++ 0x3D :: 0x22 :: (v ++ 0x22 :: r), ?_, ?_⟩
  · simp only [List.mem_append, List.mem_cons, not_or] at hs ⊢
    tauto
  · rw [quotedAttr, List.append_assoc, ← List.append_assoc y, hy]
    simp

/-- A literal that is open at the attribute is closed by its first quote, or behind it. -/
lemma exists_literal (hv : nameToken.Matches v) (ht : t <+: v ++ 0x20 :: w)
    (h : (Regex.cat [literal, ws]).Matches (y ++ n ++ 0x3D :: t)) :
    ∃ r, r ≠ [] ∧ r <+: quotedAttr n v ++ w ∧ (Regex.cat [literal, ws]).Matches (y ++ r) := by
  obtain ⟨x, sp, hx, hsp, heq⟩ := matches_cat_ws_iff.1 h
  obtain ⟨q, s, hq, hs, rfl⟩ := matches_literal_iff.1 hx
  have heq' : y ++ n ++ 0x3D :: t = [q] ++ (s ++ q :: sp) := by simpa using heq.symm
  have hqeq : (0x3D : UInt8) ≠ q := by
    rintro rfl
    exact absurd hq (by decide)
  obtain ⟨s₁, s₂, rfl, hy, rfl⟩ := exists_of_append_cons_eq_append_append heq' (by simpa using hqeq)
    (by simpa [hqeq] using notMem_of_white hsp (by decide))
  have hs₁ : q ∉ s₁ := fun hmem => hs (by simp [hmem])
  have hs₂ : q ∉ s₂ := fun hmem => hs (by simp [hmem])
  -- the words of the two quotes that the literal can have
  have hclose : ∀ r, q ∉ r →
      (Regex.cat [literal, ws]).Matches (y ++ (n ++ 0x3D :: (r ++ [q]))) := by
    intro r hr
    refine matches_cat_ws_iff.2 ⟨q :: ((s₁ ++ 0x3D :: r) ++ [q]), [], ?_, by simp [White], ?_⟩
    · exact matches_literal_iff.2 ⟨q, _, hq, by simp [hs₁, hr, Ne.symm hqeq], rfl⟩
    · rw [← List.append_assoc y, hy]
      simp
  rcases isQuote_iff.1 hq with rfl | rfl
  · exact ⟨n ++ 0x3D :: ([] ++ [0x22]), by simp, by simp [quotedAttr], hclose [] (by simp)⟩
  · obtain ⟨r, rfl, hr⟩ := exists_behind_blank hv (by decide) (by decide) ht
    refine ⟨n ++ 0x3D :: ((0x22 :: (v ++ 0x22 :: r)) ++ [0x27]), by simp, ?_, hclose _ ?_⟩
    · have hpre : r ++ [0x27] <+: w := ((List.prefix_append_right_inj r).2 (by simp)).trans hr
      simpa [quotedAttr] using hpre
    · have hr' : (0x27 : UInt8) ∉ r := fun hmem => hs₂ (by simp [hmem])
      simp [notMem_of_nameToken hv (b := 0x27) (by decide), hr']

/-- A rule that reaches over the start of an attribute without quotes reaches over the start of one
with quotes. -/
lemma beyond_quoted (hn : name.Matches n) (hv : nameToken.Matches v)
    (h : Beyond c y (bareAttr n v ++ w) scanRules) :
    Beyond c y (quotedAttr n v ++ w) scanRules := by
  rw [beyond_scanRules] at h ⊢
  obtain ⟨l, hc, t, hne, ht, hmatch⟩ := h
  have hnne : n ≠ [] := by
    obtain ⟨a, m, -, -, rfl⟩ := matches_name_iff.1 hn
    simp
  have hname : n <+: quotedAttr n v ++ w := by simp [quotedAttr]
  rw [bareAttr, List.append_assoc, List.cons_append, List.append_assoc, List.singleton_append] at ht
  rcases prefix_append_cons_cases ht with hpre | ⟨t, hrest, rfl⟩
  · exact ⟨l, hc, t, hne, hpre.trans hname, hmatch⟩
  rw [← List.append_assoc] at hmatch
  have hmem : (0x3D : UInt8) ∈ y ++ n ++ 0x3D :: t := by simp
  have hlong : 2 ≤ (y ++ n ++ 0x3D :: t).length := by
    have := List.length_pos_iff.2 hnne
    simp only [List.length_append, List.length_cons]
    omega
  cases l with
  | data | scriptData =>
      have hlt := (matches_dataRe_iff.1 hmatch).resolve_right (by omega)
      refine ⟨_, hc, n, hnne, hname, matches_dataRe_iff.2 (Or.inl fun hmem => hlt ?_)⟩
      exact List.mem_append_left _ hmem
  | dsData =>
      have hall := (Regex.matches_plus_cls_iff.1 hmatch).2
      refine ⟨_, hc, n, hnne, hname, Regex.matches_plus_cls_iff.2 ⟨by simp [hnne], fun b hb => ?_⟩⟩
      exact hall b (List.mem_append_left _ hb)
  | unquoted =>
      obtain ⟨s, sp, hs, hsp, heq⟩ := matches_cat_ws_iff.1 hmatch
      rw [Regex.matches_plus_cls_iff] at hs
      have heq' : y ++ n ++ 0x3D :: t = [] ++ (s ++ sp) := heq.symm
      obtain ⟨s₁, s₂, rfl, hy, -⟩ := exists_of_append_cons_eq_append_append heq' (by simp)
        (notMem_of_white hsp (by decide))
      rw [List.nil_append] at hy
      refine ⟨_, hc, n, hnne, hname,
        matches_cat_ws_iff.2 ⟨y ++ n, [], ?_, by simp [White], by simp⟩⟩
      rw [Regex.matches_plus_cls_iff]
      exact ⟨by simp [hnne], fun b hb => hs.2 b (by rw [← hy]; exact List.mem_append_left _ hb)⟩
  | attrname =>
      obtain ⟨hx, -⟩ := matches_attrname_append_iff.1 hmatch
      refine ⟨_, hc, n ++ [0x3D], by simp, by simp [quotedAttr], ?_⟩
      rw [← List.append_assoc]
      exact matches_attrname_append_iff.2 ⟨hx, by simp [White]⟩
  | literal | mdLiteral =>
      obtain ⟨r, hr, hpre, hlit⟩ := exists_literal hv hrest hmatch
      exact ⟨_, hc, r, hr, hpre, hlit⟩
  | pi =>
      obtain ⟨s, hs, heq⟩ := matches_pi_iff.1 hmatch
      obtain ⟨r, hr, hpre, hclosed⟩ := exists_delimited hv hrest (by decide) (by decide) (by decide)
        (by decide) (by decide) hs heq
      exact ⟨_, hc, r, hr, hpre, matches_pi_iff.2 hclosed⟩
  | cdataClose =>
      obtain ⟨s, hs, heq⟩ := matches_cdataClose_iff.1 hmatch
      obtain ⟨r, hr, hpre, hclosed⟩ := exists_delimited (o := []) hv hrest (by decide) (by decide)
        (by decide) (by decide) (by decide) hs heq
      exact ⟨_, hc, r, hr, hpre, matches_cdataClose_iff.2 hclosed⟩
  | badCharacter | commentData | mdIllegal | cdataUnmatched | unmatched =>
      obtain ⟨b, -, heq⟩ := Regex.matches_cls_iff.1 hmatch
      rw [heq] at hlong
      exact absurd hlong (by simp)
  | _ => exact absurd hmem (hmatch.notMem (by decide))

/-- The trailing context at the end of a section does not lie over the start of a name. -/
lemma le_of_trail (ha : isNameStart a = true) {k : ℕ} {l : Label}
    (h : munch c (y ++ a :: w) scanRules = some (k, l)) (hk : k - trail l ≤ y.length) :
    k ≤ y.length := by
  by_contra hlt
  obtain rfl := eq_cdataClose_of_trail (l := l) (by omega)
  obtain ⟨hle, -, hmatch, -⟩ := munch_label_cases h
  obtain ⟨s, -, hs⟩ := matches_cdataClose_iff.1 hmatch
  have hlen : k = s.length + 3 := by
    have := congrArg List.length hs
    rwa [List.length_take_of_le hle, List.length_append] at this
  have hsy : s.length ≤ y.length := by
    have : k - 3 ≤ y.length := hk
    omega
  obtain ⟨m, hm⟩ : ∃ m, k - y.length = m + 1 := ⟨k - y.length - 1, by omega⟩
  rw [List.take_append, List.take_of_length_le (by omega), hm, List.take_succ_cons] at hs
  have hmem : a ∈ cdatac := by
    rcases List.append_eq_append_iff.1 hs with ⟨r, rfl, hr⟩ | ⟨r, rfl, hr⟩
    · obtain rfl : r = [] := by simpa using hsy
      rw [List.nil_append] at hr
      rw [← hr]
      exact List.mem_cons_self
    · rw [hr]
      simp
  have hclose : cdatac.all (!isNameStart ·) = true := by decide
  simpa [ha] using List.all_eq_true.1 hclose a hmem

/-- The scanner comes to an attribute without quotes as it does to one with quotes. -/
lemma reaches_bare (hn : name.Matches n) (hv : nameToken.Matches v) {s t : State}
    (h : (tokenizer e).Reaches s (x ++ (quotedAttr n v ++ w)) t (quotedAttr n v ++ w)) :
    (tokenizer e).Reaches s (x ++ (bareAttr n v ++ w)) t (bareAttr n v ++ w) := by
  refine h.transfer rfl (fun _ _ _ _ => munch_pos) (fun _ _ _ => beyond_quoted hn hv) ?_
  intro c y k l _ hmunch hk
  obtain ⟨a, m, ha, -, rfl⟩ := matches_name_iff.1 hn
  exact le_of_trail ha hmunch hk

/-! ### The tokens of the attribute -/

/-- The rules of a tag that match two bytes at most. -/
lemma length_le_two {l : Label}
    (hl : l ∈ [Label.attrvalClose, .tagClose, .netClose, .unclosed, .badCharacter, .unmatched])
    (h : l.pattern.Matches u) : u.length ≤ 2 := by
  cases l with
  | attrvalClose | tagClose | unclosed => rw [matches_delim_iff.1 h]; decide
  | netClose =>
      obtain ⟨x, y, hx, hy, rfl⟩ := Regex.matches_seq_iff.1 h
      rw [matches_delim_iff.1 hx, matches_delim_iff.1 hy]
      decide
  | badCharacter | unmatched =>
      obtain ⟨b, -, rfl⟩ := Regex.matches_cls_iff.1 h
      simp
  | _ => exact absurd hl (by decide)

lemma munch_attrname (hn : name.Matches n) (ha : isWhite a = false) :
    munch .attr ((n ++ [0x3D]) ++ a :: w) scanRules = some ((n ++ [0x3D]).length, .attrname) := by
  have hlen : 2 ≤ (n ++ [(0x3D : UInt8)]).length := by
    obtain ⟨a, m, -, -, rfl⟩ := matches_name_iff.1 hn
    simp
  have hmatch : Label.attrname.pattern.Matches (n ++ [0x3D]) :=
    matches_attrname_append_iff.2 ⟨matches_cat_ws_iff.2 ⟨n, [], hn, by simp [White], by simp⟩,
      by simp [White]⟩
  refine munch_label (by decide) hmatch ?_ ?_
  · intro l hl hc
    cases l <;> first | exact absurd hl (by decide) | exact absurd hc (by decide)
  · intro l hc u hu hu'
    have hpre : u <+: n ++ 0x3D :: a :: w := by simpa using hu
    cases l with
    | attrname =>
        rcases prefix_append_cons_cases hu with hle | ⟨t, -, rfl⟩
        · exact hle.length_le
        · rw [List.append_assoc, List.singleton_append, matches_attrname_append_iff] at hu'
          rw [hu'.2 a List.mem_cons_self] at ha
          exact absurd ha (by simp)
    | name | newlines =>
        have := length_le_of_isPrefix hpre (hu'.notMem (by decide))
        rw [List.length_append]
        omega
    | tagClose | netClose | unclosed | badCharacter | unmatched =>
        exact (length_le_two (by decide) hu').trans hlen
    | _ => exact absurd hc (by decide)

lemma munch_literal (hv : nameToken.Matches v) (hx : White x)
    (hw : ∀ a ∈ w.head?, isWhite a = false) :
    munch .attrval ((0x22 :: (v ++ 0x22 :: x)) ++ w) scanRules =
      some ((0x22 :: (v ++ 0x22 :: x)).length, .literal) := by
  have hvq : (0x22 : UInt8) ∉ v := notMem_of_nameToken hv (by decide)
  have hmatch : Label.literal.pattern.Matches (0x22 :: (v ++ 0x22 :: x)) := by
    refine matches_cat_ws_iff.2 ⟨0x22 :: (v ++ [0x22]), x, ?_, hx, by simp⟩
    exact matches_literal_iff.2 ⟨0x22, v, by decide, hvq, rfl⟩
  refine munch_label (by decide) hmatch ?_ ?_
  · intro l hl hc hnot
    cases l with
    | nmtoken => exact hnot.notMem (d := 0x22) (by decide) (by simp)
    | _ => first | exact absurd hl (by decide) | exact absurd hc (by decide)
  · intro l hc u hu hu'
    cases l with
    | literal =>
        cases w with
        | nil => simpa using hu.length_le
        | cons a w =>
            rcases prefix_append_cons_cases hu with hle | ⟨t, -, rfl⟩
            · exact hle.length_le
            -- white space would have to go on with `a`
            · obtain ⟨_, sp, hlit, hsp, heq⟩ := matches_cat_ws_iff.1 hu'
              obtain ⟨q, s, -, hs, rfl⟩ := matches_literal_iff.1 hlit
              simp only [List.cons_append, List.append_assoc, List.nil_append, List.cons.injEq]
                at heq
              obtain ⟨rfl, heq⟩ := heq
              obtain ⟨-, rfl⟩ := append_cons_inj hs hvq heq
              have hwhite := hsp a (by simp)
              rw [hw a rfl] at hwhite
              exact absurd hwhite (by simp)
    | nmtoken | unquoted | newlines =>
        have hle := length_le_of_isPrefix (x := []) (d := 0x22) hu (hu'.notMem (by decide))
        exact hle.trans (Nat.zero_le _)
    | attrvalClose | netClose | unclosed | badCharacter | unmatched =>
        refine (length_le_two (by decide) hu').trans ?_
        simp only [List.length_cons, List.length_append]
        omega
    | _ => exact absurd hc (by decide)

lemma munch_nmtoken (hv : nameToken.Matches v) (hx : White x)
    (hw : ∀ a ∈ w.head?, isWhite a = false) :
    munch .attrval ((v ++ 0x20 :: x) ++ w) scanRules
      = some ((v ++ 0x20 :: x).length, .nmtoken) := by
  have hblank : White (0x20 :: x) := List.forall_mem_cons.2 ⟨by decide, hx⟩
  have hmatch : Label.nmtoken.pattern.Matches (v ++ 0x20 :: x) :=
    matches_cat_ws_iff.2 ⟨v, 0x20 :: x, hv, hblank, rfl⟩
  obtain ⟨hne, hchar⟩ := Regex.matches_plus_cls_iff.1 hv
  have hpos := List.length_pos_iff.2 hne
  refine munch_label (by decide) hmatch ?_ ?_
  · intro l hl hc
    cases l <;> first | exact absurd hl (by decide) | exact absurd hc (by decide)
  · intro l hc u hu hu'
    cases l with
    | nmtoken | unquoted =>
        obtain ⟨r, sp, hr, hsp, rfl⟩ := matches_cat_ws_iff.1 hu'
        exact length_le_of_white (hr.notMem (by decide)) hsp hw hu
    | literal =>
        obtain ⟨_, sp, hlit, -, rfl⟩ := matches_cat_ws_iff.1 hu'
        obtain ⟨q, s, hq, -, rfl⟩ := matches_literal_iff.1 hlit
        obtain ⟨b, v, rfl⟩ := List.exists_cons_of_ne_nil hne
        obtain ⟨r, hr⟩ := hu
        obtain ⟨rfl, -⟩ := List.cons.inj hr
        have := hchar q List.mem_cons_self
        rcases isQuote_iff.1 hq with rfl | rfl <;> exact absurd this (by decide)
    | newlines =>
        have hnil : u ++ [] <+: (v ++ 0x20 :: x) ++ w := by simpa using hu
        simpa using length_le_of_white (hu'.notMem (by decide)) (by simp [White]) hw hnil
    | attrvalClose | netClose | unclosed | badCharacter | unmatched =>
        refine (length_le_two (by decide) hu').trans ?_
        simp only [List.length_cons, List.length_append]
        omega
    | _ => exact absurd hc (by decide)

/-! ### The run over the attribute -/

lemma attrnameText_name (hn : name.Matches n) : attrnameText (n ++ [0x3D]) = n := by
  rw [attrnameText, List.rdropWhile_concat_pos _ _ _ (by simp)]
  refine rdropWhile_of_isNameChar (fun c hc => ?_) (isNameChar_of_name hn)
  simp only [isSpace, Bool.or_eq_true, beq_iff_eq, Bool.and_eq_true, decide_eq_true_eq] at hc
  simp only [isNameChar, isNameStart, isAlpha, isDigit, Bool.or_eq_false_iff, beq_eq_false_iff_ne,
    Bool.and_eq_false_iff, decide_eq_false_iff_not]
  grind

/-- A tab at the end is not stripped, and then the last quote is not removed either. -/
lemma unquote_cases (v : Str) (hx : White x) : ∃ r, unquote (0x22 :: (v ++ 0x22 :: x)) = v ++ r ∧
    (r = [] ∨ ∃ sp, White sp ∧ r = 0x22 :: sp) := by
  have hstrip : stripBlanks (0x22 :: (v ++ 0x22 :: x)) =
      (0x22 :: v) ++ 0x22 :: x.rdropWhile isStripped := by
    have hself : (0x22 :: v ++ [0x22]).rdropWhile isStripped = 0x22 :: v ++ [0x22] :=
      List.rdropWhile_concat_neg _ _ _ (by decide)
    have := rdropWhile_append_of_self hself x
    simpa [stripBlanks] using this
  rw [unquote, hstrip]
  rcases List.eq_nil_or_concat (x.rdropWhile isStripped) with hnil | ⟨sp, b, hsp⟩
  · refine ⟨[], ?_, Or.inl rfl⟩
    have hlast : (0x22 :: v ++ [0x22]).getLast?.any isQuote = true := by
      rw [List.getLast?_concat]
      decide
    rw [hnil, hlast, if_pos rfl, List.dropLast_concat]
    simp [isQuote]
  · have hwhite : White (sp ++ [b]) := fun c hc =>
      hx c ((List.rdropWhile_prefix _ _).subset (by rw [hsp, List.concat_eq_append]; exact hc))
    have hb : isQuote b = false := by
      rcases isWhite_iff.1 (hwhite b (by simp)) with rfl | rfl | rfl | rfl <;> decide
    refine ⟨0x22 :: (sp ++ [b]), ?_, Or.inr ⟨_, hwhite, rfl⟩⟩
    rw [hsp, List.concat_eq_append]
    have hlast : ((0x22 :: v) ++ 0x22 :: (sp ++ [b])).getLast?.any isQuote = false := by
      rw [← List.cons_append, ← List.append_assoc, List.getLast?_concat]
      exact hb
    rw [hlast, if_neg Bool.false_ne_true]
    simp [isQuote]

lemma amp_notMem (hv : nameToken.Matches v) {r : Str}
    (hr : r = [] ∨ ∃ sp, White sp ∧ r = 0x22 :: sp) : 0x26 ∉ v ++ r := by
  rw [List.mem_append, not_or]
  refine ⟨notMem_of_nameToken hv (by decide), ?_⟩
  rcases hr with rfl | ⟨sp, hsp, rfl⟩
  · simp
  · rw [List.mem_cons, not_or]
    exact ⟨by decide, notMem_of_white hsp (by decide)⟩

lemma white_takeWhile (w : Str) : White (w.takeWhile isWhite) := fun _ => List.mem_takeWhile_imp

variable (e) in
/-- The name of the attribute and the equals sign. -/
lemma run_attrname (hn : name.Matches n) (ha : isWhite a = false) (ts : List Token)
    (L : HtmlLexer) :
    (tokenizer e).run steps ⟨.attr, ts, L⟩ (n ++ 0x3D :: a :: w) =
      (tokenizer e).run steps ⟨.attrval, ts ++ [⟨.attrname, n.map toLower⟩], L⟩ (a :: w) := by
  have hamp : e.replaceAllEntities n = n := e.replaceAllEntities_of_notMem fun hmem =>
    ne_of_isNameChar (isNameChar_of_name hn _ hmem) (by decide) rfl
  have hrun := run_append e (s := ⟨.attr, ts, L⟩) (by simp) rfl (munch_attrname (w := w) hn ha)
  rw [List.append_assoc, List.singleton_append] at hrun
  rw [hrun]
  simp [State.emit, State.addtoken, next, attrnameText_name hn, hamp]

variable (e) in
lemma run_quoted (hn : name.Matches n) (hv : nameToken.Matches v) (w : Str) (ts : List Token)
    (L : HtmlLexer) :
    (tokenizer e).run steps ⟨.attr, ts, L⟩ (quotedAttr n v ++ w) =
      (tokenizer e).run steps
        ⟨.attr, ts ++ [⟨.attrname, n.map toLower⟩, ⟨.literal, quotedValue v w⟩], L⟩
        (w.dropWhile isWhite) := by
  obtain ⟨r, hunquote, hr⟩ := unquote_cases v (white_takeWhile w)
  have hamp := e.replaceAllEntities_of_notMem (amp_notMem hv hr)
  have hname := run_attrname e hn (a := 0x22) (w := v ++ 0x22 :: w) (by decide) ts L
  have hvalue := run_append e (s := ⟨.attrval, ts ++ [⟨.attrname, n.map toLower⟩], L⟩) (by simp) rfl
    (munch_literal hv (white_takeWhile w) (w := w.dropWhile isWhite) fun _ => head?_dropWhile)
  have hw : 0x22 :: (v ++ 0x22 :: w.takeWhile isWhite) ++ w.dropWhile isWhite =
      0x22 :: (v ++ 0x22 :: w) := by simp [List.takeWhile_append_dropWhile]
  rw [hw] at hvalue
  have hattr : quotedAttr n v ++ w = n ++ 0x3D :: 0x22 :: (v ++ 0x22 :: w) := by simp [quotedAttr]
  rw [hattr, hname, hvalue]
  simp [State.emit, State.addtoken, next, quotedValue, hunquote, hamp]

variable (e) in
lemma run_bare (hn : name.Matches n) (hv : nameToken.Matches v) (w : Str) (ts : List Token)
    (L : HtmlLexer) :
    ∃ r, (tokenizer e).run steps ⟨.attr, ts, L⟩ (bareAttr n v ++ w) =
      (tokenizer e).run steps ⟨.attr, ts ++ [⟨.attrname, n.map toLower⟩, ⟨.nmtoken, r⟩], L⟩
        (w.dropWhile isWhite) := by
  obtain ⟨hne, hchar⟩ := Regex.matches_plus_cls_iff.1 hv
  have hvalue := run_append e (s := ⟨.attrval, ts ++ [⟨.attrname, n.map toLower⟩], L⟩) (by simp) rfl
    (munch_nmtoken hv (white_takeWhile w) (w := w.dropWhile isWhite) fun _ => head?_dropWhile)
  obtain ⟨b, v, rfl⟩ := List.exists_cons_of_ne_nil hne
  have hb : isWhite b = false := by
    by_contra h
    rw [Bool.not_eq_false] at h
    exact ne_of_isNameChar (hchar b List.mem_cons_self) (isNameChar_of_isWhite h) rfl
  have hname := run_attrname e hn (w := v ++ 0x20 :: w) hb ts L
  refine ⟨e.replaceAllEntities (b :: v ++ 0x20 :: w.takeWhile isWhite), ?_⟩
  have hw : b :: v ++ 0x20 :: w.takeWhile isWhite ++ w.dropWhile isWhite
      = b :: (v ++ 0x20 :: w) := by
    simp [List.takeWhile_append_dropWhile]
  rw [hw] at hvalue
  have hattr : bareAttr n (b :: v) ++ w = n ++ 0x3D :: b :: (v ++ 0x20 :: w) := by simp [bareAttr]
  rw [hattr, hname, hvalue]
  simp [State.emit, State.addtoken, next]

/-! ### The rest of the tag -/

/-- The rules that end a start tag. -/
def Label.closesTag : List Label := [.attrvalClose, .tagClose, .netClose, .unclosed]

/-- The rules inside a start tag. -/
def Label.inTag : List Label :=
  [.attrname, .name, .nmtoken, .literal, .unquoted, .badCharacter, .newlines, .unmatched]

/-- The tokens that a rule adds inside a tag. -/
def added (e : EntityHandler) (l : Label) (u : Str) : List Token :=
  (({ lexer := {} } : State).emit e l u).tokens

/-- The tokens in a text up to the end of the tag. -/
inductive RestOfTag (e : EntityHandler) : Cond → Str → List Token → Prop
  /-- The document ends inside the tag. -/
  | nil (c : Cond) : RestOfTag e c [] []
  | close {c : Cond} {l : Label} {u w : Str} : u ≠ [] → l ∈ Label.closesTag →
      munch c (u ++ w) scanRules = some (u.length, l) → RestOfTag e c (u ++ w) []
  | more {c : Cond} {l : Label} {u w : Str} {us : List Token} : u ≠ [] → l ∈ Label.inTag →
      munch c (u ++ w) scanRules = some (u.length, l) → RestOfTag e (next c l u) w us →
      RestOfTag e c (u ++ w) (added e l u ++ us)

lemma Label.mem_of_attr : ∀ l : Label, .attr ∈ l.conds ∨ .attrval ∈ l.conds →
    l ∈ closesTag ∨ l ∈ inTag := by
  intro l
  cases l <;> decide

lemma Label.trail_of_inTag : ∀ l ∈ inTag ++ closesTag, trail l = 0 := by decide

/-- The rules inside a start tag do not leave it. -/
lemma next_inTag {l : Label} (hl : l ∈ Label.inTag) (hc : c = .attr ∨ c = .attrval) (u : Str) :
    next c l u = .attr ∨ next c l u = .attrval := by
  simp only [Label.inTag, List.mem_cons, List.not_mem_nil, or_false] at hl
  rcases hl with rfl | rfl | rfl | rfl | rfl | rfl | rfl | rfl
  · exact Or.inr rfl
  · exact hc
  · exact Or.inl rfl
  · exact Or.inl rfl
  · exact Or.inl rfl
  · exact hc
  · exact hc
  · exact hc

/-- Every text has tokens up to the end of the tag. -/
theorem exists_restOfTag (e : EntityHandler) (hc : c = .attr ∨ c = .attrval) (w : Str) :
    ∃ us, RestOfTag e c w us := by
  induction hk : w.length using Nat.strong_induction_on generalizing w c with
  | _ k ih =>
      by_cases hw : w = []
      · exact ⟨[], hw ▸ .nil c⟩
      obtain ⟨n, l, hmunch⟩ := exists_munch c hw
      have hpos := munch_pos hmunch hw
      obtain ⟨hle, hcond, -⟩ := munch_label_cases hmunch
      obtain ⟨u, v, rfl, rfl⟩ : ∃ u v, w = u ++ v ∧ n = u.length :=
        ⟨w.take n, w.drop n, by simp, (List.length_take_of_le hle).symm⟩
      have hu : u ≠ [] := List.length_pos_iff.1 hpos
      rcases Label.mem_of_attr l (by rcases hc with rfl | rfl <;> simp [hcond]) with hl | hl
      · exact ⟨[], .close hu hl hmunch⟩
      · obtain ⟨us, hus⟩ := ih v.length (by rw [← hk, List.length_append]; omega)
          (next_inTag hl hc u) v rfl
        exact ⟨_, .more hu hl hmunch hus⟩

lemma emit_inTag {l : Label} (hl : l ∈ Label.inTag) (s : State) (u : Str) :
    (s.emit e l u).tokens = s.tokens ++ added e l u ∧
      (s.emit e l u).lexer.quiet = s.lexer.quiet := by
  simp only [Label.inTag, List.mem_cons, List.not_mem_nil, or_false] at hl
  rcases hl with rfl | rfl | rfl | rfl | rfl | rfl | rfl | rfl <;>
    exact ⟨by simp [State.emit, State.addtoken, State.warn, added], rfl⟩

/-- The end of a tag hands its tokens over, with one for the end or without it. -/
lemma emit_closesTag {l : Label} (hl : l ∈ Label.closesTag) (u : Str) :
    ∃ ks, (ks = [] ∨ ∃ k, ks = [⟨.tagc, k⟩]) ∧ ∀ s : State, (s.emit e l u).tokens = [] ∧
      (s.emit e l u).lexer = s.lexer.process (s.tokens ++ ks) := by
  simp only [Label.closesTag, List.mem_cons, List.not_mem_nil, or_false] at hl
  rcases hl with rfl | rfl | rfl | rfl
  · exact ⟨[], Or.inl rfl, fun s => ⟨rfl, by simp [State.emit, State.process]⟩⟩
  · exact ⟨_, Or.inr ⟨_, rfl⟩, fun s => ⟨rfl, rfl⟩⟩
  · exact ⟨_, Or.inr ⟨_, rfl⟩, fun s => ⟨rfl, rfl⟩⟩
  · exact ⟨[], Or.inl rfl, fun s => ⟨rfl, by simp [State.emit, State.process]⟩⟩

lemma quiet_process_congr {L L' : HtmlLexer} (h : L.quiet = L'.quiet) (ts : List Token) :
    (L.process ts).quiet = (L'.process ts).quiet := by
  rw [← HtmlLexer.discreet_process L, h, HtmlLexer.discreet_process]

/-- Two scans of the rest of a tag end alike if the groups are processed alike at its end. -/
lemma RestOfTag.quiet_run {us : List Token} (h : RestOfTag e c w us) {ts ts' : List Token}
    {L L' : HtmlLexer} (hL : L.quiet = L'.quiet)
    (hgroup : ∀ ks, (ks = [] ∨ ∃ k, ks = [⟨.tagc, k⟩]) →
      (L.process (ts ++ us ++ ks)).quiet = (L.process (ts' ++ us ++ ks)).quiet) :
    ((tokenizer e).run steps ⟨c, ts, L⟩ w).lexer.quiet =
      ((tokenizer e).run steps ⟨c, ts', L'⟩ w).lexer.quiet := by
  induction h generalizing ts ts' L L' with
  | nil c =>
      rw [Tokenizer.run_nil, Tokenizer.run_nil]
      exact hL
  | @close c l u w hu hl hmunch =>
      have htrail := Label.trail_of_inTag l (List.mem_append_right _ hl)
      obtain ⟨ks, hks, hemit⟩ := emit_closesTag (e := e) hl u
      rw [run_append e (s := ⟨c, ts, L⟩) hu htrail hmunch,
        run_append e (s := ⟨c, ts', L'⟩) hu htrail hmunch]
      have hsimilar : Similar { State.emit e ⟨c, ts, L⟩ l u with cond := next c l u }
          { State.emit e ⟨c, ts', L'⟩ l u with cond := next c l u } := by
        refine ⟨rfl, ?_, ?_⟩
        · show List.Forall₂ _ (State.emit e ⟨c, ts, L⟩ l u).tokens
            (State.emit e ⟨c, ts', L'⟩ l u).tokens
          rw [(hemit _).1, (hemit _).1]
          exact .nil
        · show (State.emit e ⟨c, ts, L⟩ l u).lexer.quiet
            = (State.emit e ⟨c, ts', L'⟩ l u).lexer.quiet
          rw [(hemit _).2, (hemit _).2, ← quiet_process_congr hL]
          simpa using hgroup ks hks
      exact ((kept_similar e).run (decreases e) hsimilar).lexer
  | @more c l u w us hu hl hmunch _ ih =>
      have htrail := Label.trail_of_inTag l (List.mem_append_left _ hl)
      obtain ⟨htokens, hquiet⟩ := emit_inTag (e := e) hl ⟨c, ts, L⟩ u
      obtain ⟨htokens', hquiet'⟩ := emit_inTag (e := e) hl ⟨c, ts', L'⟩ u
      rw [run_append e (s := ⟨c, ts, L⟩) hu htrail hmunch,
        run_append e (s := ⟨c, ts', L'⟩) hu htrail hmunch]
      dsimp only
      rw [htokens, htokens']
      refine ih (hquiet.trans (hL.trans hquiet'.symm)) fun ks hks => ?_
      rw [quiet_process_congr hquiet, quiet_process_congr hquiet]
      simpa using hgroup ks hks

/-! ### Whole documents -/

/-- The scanner comes to the last part `z` of a document inside a start tag, with the tokens `ts`
behind the name of the tag. -/
def InStartTag (e : EntityHandler) (L₀ : HtmlLexer) (doc z tag : Str) (ts : List Token)
    (L : HtmlLexer) : Prop :=
  (tokenizer e).Reaches { lexer := L₀ } doc ⟨.attr, ⟨.start, tag⟩ :: ts, L⟩ z

/-- The start tag says the same without an attribute. -/
def Silent (L : HtmlLexer) (tag : Str) (front : List (Str × Str)) (n v : Str)
    (back : List (Str × Str)) : Prop :=
  L.said tag (front ++ (n, v) :: back) = L.said tag (front ++ back)

instance (L : HtmlLexer) (tag : Str) (front : List (Str × Str)) (n v : Str)
    (back : List (Str × Str)) : Decidable (Silent L tag front n v back) :=
  inferInstanceAs (Decidable (_ = _))

/-- The group of a start tag with an attribute. -/
def group (tag : Str) (ts : List Token) (n : Str) (value : Token) (us : List Token) : List Token :=
  ⟨.start, tag⟩ :: (ts ++ ⟨.attrname, n⟩ :: value :: us)

/-- A start tag is silent about an attribute exactly if no lexer with the same setting can tell a
name token in the place of its literal. -/
lemma silent_iff {L : HtmlLexer} {tag : Str} {ts us : List Token} (r : Str) :
    Silent L tag (HtmlLexer.tagMap ts) n v (HtmlLexer.tagMap us) ↔ ∀ M, L.SameSetting M →
      (M.process (group tag ts n ⟨.literal, v⟩ us)).quiet =
        (M.process (group tag ts n ⟨.nmtoken, r⟩ us)).quiet := by
  rw [Silent, ← HtmlLexer.tagMap_literal, ← HtmlLexer.tagMap_other (i := ⟨.nmtoken, r⟩) n (by simp)
    (by simp)]
  exact HtmlLexer.said_eq_iff

/-- The end of a tag is not in the map. -/
lemma tagMap_append_tagc (ts : List Token) {ks : List Token}
    (hks : ks = [] ∨ ∃ k, ks = [⟨.tagc, k⟩]) :
    HtmlLexer.tagMap (ts ++ ks) = HtmlLexer.tagMap ts := by
  rcases hks with rfl | ⟨k, rfl⟩
  · rw [List.append_nil]
  · exact HtmlLexer.tagMap_concat (by simp)

/-- A document that begins with a start tag. -/
lemma inStartTag_first (e : EntityHandler) (L : HtmlLexer) {z : Str}
    (h : munch .initial (0x3C :: x ++ z) scanRules = some ((0x3C :: x).length, .startTag))
    (hscript : isScript (stripBlanks x) = false) (hamp : 0x26 ∉ stripBlanks x) :
    InStartTag e L (0x3C :: x ++ z) z ((stripBlanks x).map toLower) [] L := by
  have hstep := Tokenizer.step_of_munch (T := tokenizer e) (s := { lexer := L })
    (b := Label.startTag) (by simp) h
  refine .step hstep ?_
  have hamp' := e.replaceAllEntities_of_notMem hamp
  have hact : (tokenizer e).act { lexer := L } .startTag (0x3C :: x) =
      ⟨.attr, [⟨.start, (stripBlanks x).map toLower⟩], L⟩ := by
    simp [tokenizer, State.emit, State.addtoken, next, hscript, hamp']
  rw [hact]
  exact .refl _ _

end Html

end Mycelium
