import Mycelium.Common.UrlIdempotent
import Mycelium.Common.UrlMerge

/-!
# Resolved references

What `normalize` and `merge_ref` build can be printed and read again: the result of resolving a
reference against a base with a host is a URL like those that `assign` builds, if the base has
neither brackets nor a port that would go over to the authority of the reference.
-/

namespace Mycelium

/-! ### Merged paths -/

namespace Path

lemma mem_foldl_mergeStep {x : Segment} (l : List Segment) (acc : List Segment × Bool)
    (h : x ∈ (l.foldl mergeStep acc).1) : x ∈ acc.1 ∨ x ∈ l := by
  induction l generalizing acc with
  | nil => exact .inl h
  | cons i l ih =>
      rw [List.foldl_cons] at h
      rcases ih _ h with h | h
      · rw [mergeStep] at h
        split_ifs at h with hdot hdotdot hempty
        · exact .inl h
        · exact .inl h
        · exact .inl (List.mem_of_mem_dropLast h)
        · rcases List.mem_append.1 h with h | h
          · exact .inl h
          · exact .inr (by simp_all)
      · exact .inr (List.mem_cons_of_mem _ h)

/-- The segments of a merged path come from the two paths. -/
lemma mem_merge {p q : Path} {x : Segment} (h : x ∈ (p.merge q).segmt) :
    x ∈ p.segmt ∨ x ∈ q.segmt := by
  rw [merge] at h
  split_ifs at h
  · exact .inr h
  · rcases mem_foldl_mergeStep _ _ h with h | h
    · exact .inl (List.mem_of_mem_dropLast h)
    · exact .inr h
  · exact mem_foldl_mergeStep _ _ h

lemma SlashLocal.get_merge {P : Str → Prop} (hP : SlashLocal P) {p q : Path} (hp : P p.get)
    (hq : P q.get) : P (p.merge q).get :=
  hP.get fun x hx => (mem_merge hx).elim (hP.segmt hp x) (hP.segmt hq x)

lemma slashBegin_merge {p : Path} (q : Path) (h : p.slashBegin = true) :
    (p.merge q).slashBegin = true := by
  rw [merge]
  split
  · next hq => exact hq
  · exact h

end Path

namespace Url

variable {u v w B R : Url}

/-! ### Accepted URLs with an authority -/

/-- A URL with an authority whose components are like those of the setters. -/
structure Composed (u : Url) : Prop where
  scheme : u.scheme ≠ [] → reScheme.accepts u.scheme = true ∧ u.scheme.map toLower = u.scheme
  hasAuthority : u.hasAuthority = true
  authority : u.authorityParts.WF
  path : Clean urlCharPath u.path.get
  slashBegin : u.path.slashBegin = true
  query : Clean urlCharQuery u.query
  query_head : ∀ c ∈ u.query.head?, c = Byte.question
  fragment : Clean urlCharFragment u.fragment
  fragment_head : ∀ c ∈ u.fragment.head?, c = Byte.hash

lemma Accepted.hasAuthority_of_scheme (h : Accepted u) (hs : u.scheme ≠ []) :
    u.hasAuthority = true := by
  by_contra ha
  exact hs (h.blank (by simpa using ha)).1

lemma Accepted.composed (h : Accepted u) (ha : u.hasAuthority = true) : Composed u where
  scheme hs := ⟨(h.wf.scheme_ok hs).1, (h.wf.scheme_ok hs).2.1⟩
  hasAuthority := ha
  authority := h.wf.authority_wf _ (by simp [parts, ha, authorityParts])
  path := h.wf.path_clean
  slashBegin := h.absolute ha
  query := h.wf.query_clean
  query_head := h.wf.query_head
  fragment := h.wf.fragment_clean
  fragment_head := h.wf.fragment_head

lemma Composed.syntaxOk (h : Composed u) : u.syntaxOk = true := by
  have hscheme : ∀ c ∈ u.scheme, isSchemeDelim c = false := fun c hc =>
    (not_schemeDelim_of_reScheme (h.scheme (List.ne_nil_of_mem hc)).1 c hc).1
  have hhost := not_authorityDelim_of_clean h.authority.host_clean
  have hpath := not_pathDelim_of_clean h.path
  have hquery := ne_hash_of_clean h.query
  have hvalid : validHost u.host = true := h.authority.host_valid
  simp only [Url.syntaxOk, h.slashBegin, hvalid, Bool.and_eq_true, Bool.not_eq_true',
    List.any_eq_false]
  refine ⟨⟨⟨⟨⟨by simp, ?_⟩, ?_⟩, trivial⟩, ?_⟩, ?_⟩
  · exact fun c hc => by simp [hscheme c hc]
  · exact fun c hc => by simpa using hhost c hc
  · exact fun c hc => by simp [hpath c hc]
  · exact fun c hc => by simpa using hquery c hc

lemma Composed.accepted (h : Composed u) : Accepted u := by
  have hauth : u.parts.authority = some u.authorityParts := by
    simp [parts, h.hasAuthority, authorityParts]
  refine ⟨⟨fun hs => ⟨(h.scheme hs).1, (h.scheme hs).2, by simp [hauth]⟩, ?_, h.path, fun _ => ?_,
    fun hn => absurd hn (by simp [hauth]), fun hn => absurd hn (by simp [hauth]), h.query,
    h.query_head, h.fragment, h.fragment_head⟩, h.syntaxOk, fun _ => h.slashBegin,
    fun hn => absurd (h.hasAuthority.symm.trans hn) (by simp)⟩
  · intro a ha
    rw [hauth, Option.mem_some_iff] at ha
    exact ha ▸ h.authority
  · obtain ⟨t, ht⟩ := u.path.get_head.1 h.slashBegin
    intro c hc
    rw [show u.parts.path = Byte.slash :: t from ht] at hc
    exact (Option.some.inj hc).symm

/-! ### Normalizing -/

/-- The normal form is an accepted URL, of which the path is then normalized. -/
lemma Accepted.exists_of_normalize (h : Accepted u) (hv : u.normalize = .ok v) :
    ∃ w, Accepted w ∧ w.parts.Readable ∧ v = w.normalizePath ∧ w.scheme = u.scheme ∧
      w.hasAuthority = u.hasAuthority := by
  have hr := (normalize_ok_iff_readable h).1 ⟨v, hv⟩
  have hacc := accepted_of_assign (Parts.assign_print h.wf.normal ((readable_normal_iff h.wf).2 hr))
  have hhost := host_normalize h hv
  rw [normalize_of_readable h hr, Except.ok.injEq] at hv
  have hscheme : u.parts.normal.toUrl.scheme = u.scheme := by
    cases ha : u.hasAuthority <;> simp [Parts.toUrl, Parts.normal, parts, ha]
  refine ⟨_, hacc, (readable_parts_iff hacc).2 ?_, hv.symm, hscheme, ?_⟩
  · have hhost' : u.parts.normal.toUrl.host = hostNormal u.host :=
      (congrArg Url.host hv).trans hhost
    rw [hhost', hscheme, ne_eq, hostNormal_eq_nil_iff h.host_valid]
    exact (readable_parts_iff h).1 hr
  · cases ha : u.hasAuthority <;> simp [Parts.toUrl, Parts.normal, parts, ha]

lemma clean_normalizePath (h : Accepted w) : Clean urlCharPath w.normalizePath.path.get :=
  (Path.slashLocal_clean (by decide)).get_normalize h.wf.path_clean

/-- A reference without an authority stays one when its path is normalized. -/
lemma Accepted.syntaxOk_normalizePath (h : Accepted w) (ha : w.hasAuthority = false) :
    w.normalizePath.syntaxOk = true := by
  have hdelim := not_pathDelim_of_clean (clean_normalizePath h)
  have hok := h.syntaxOk
  simp only [Url.syntaxOk, Bool.and_eq_true, Bool.not_eq_true', List.any_eq_false] at hok ⊢
  obtain ⟨⟨⟨⟨⟨-, hscheme⟩, hhost⟩, hvalid⟩, -⟩, hquery⟩ := hok
  refine ⟨⟨⟨⟨⟨?_, hscheme⟩, hhost⟩, hvalid⟩, ?_⟩, hquery⟩
  · simp [Url.normalizePath, ha]
  · exact fun c hc => by simp [hdelim c hc]

/-! ### Merging -/

/-- `merge_ref` on a reference with neither scheme nor authority. -/
lemma mergeRef_path (hok : R.syntaxOk = true) (hs : R.scheme = [])
    (ha : R.hasAuthority = false) (hq : Clean urlCharQuery R.query)
    (hf : Clean urlCharFragment R.fragment) (hB : B.scheme ≠ []) :
    B.mergeRef R = .ok { B with
      path := if R.path.empty then B.path else B.path.merge R.path
      query := if R.path.empty && R.query.isEmpty then B.query else R.query
      fragment := R.fragment } := by
  have hquery : escape R.query urlCharQuery = R.query := escape_of_clean hq
  have hfrag : escape R.fragment urlCharFragment = R.fragment := escape_of_clean hf
  rw [mergeRef, hok]
  simp only [absolute, hasScheme, hasQuery, hasFragment, hs, ha, bind, Except.bind]
  cases hp : R.path.empty <;> by_cases hq : R.query = [] <;> by_cases hf : R.fragment = [] <;>
    simp [hB, hq, hf, setQuery, setFragment, clearQuery, clearFragment, hquery, hfrag]

/-- `merge_ref` on a reference whose authority has no host: the host of the base is removed. -/
lemma mergeRef_noHost (hR : Accepted R) (hB : B.scheme ≠ []) (hs : R.scheme = [])
    (ha : R.hasAuthority = true) (hh : R.host = []) :
    B.mergeRef R = .ok { B with
      host := []
      hasAuthority := true
      path := (Path.assign R.path.get).setAbsolute true
      query := if R.query.isEmpty then B.query else R.query
      fragment := R.fragment } := by
  have hauth : R.authority = [] := by simp [authority, hh]
  have hpath : escape R.path.get urlCharPath = R.path.get := escape_of_clean hR.wf.path_clean
  have hquery : escape R.query urlCharQuery = R.query := escape_of_clean hR.wf.query_clean
  have hfrag : escape R.fragment urlCharFragment = R.fragment :=
    escape_of_clean hR.wf.fragment_clean
  rw [mergeRef, hR.syntaxOk]
  simp only [absolute, hasScheme, hasQuery, hasFragment, hs, ha, hauth, setAuthority_nil,
    List.isEmpty_iff, bind, Except.bind]
  by_cases hq : R.query = [] <;> by_cases hf : R.fragment = [] <;>
    simp [hB, hq, hf, setPath, setQuery, setFragment, clearFragment, hpath, hquery, hfrag]

/-- The merged URL with the path, the query and the fragment of the reference or the base. -/
lemma Composed.merged (hB : Composed B) (hv : v.authorityParts.WF) (ha : v.hasAuthority = true)
    (hscheme : v.scheme = B.scheme) (hpath : Clean urlCharPath v.path.get)
    (hslash : v.path.slashBegin = true) (hw : Accepted w)
    (hquery : v.query = B.query ∨ v.query = w.query) (hfragment : v.fragment = w.fragment) :
    Composed v where
  scheme := hscheme ▸ hB.scheme
  hasAuthority := ha
  authority := hv
  path := hpath
  slashBegin := hslash
  query := by rcases hquery with h | h <;> rw [h]; exacts [hB.query, hw.wf.query_clean]
  query_head := by rcases hquery with h | h <;> rw [h]; exacts [hB.query_head, hw.wf.query_head]
  fragment := hfragment ▸ hw.wf.fragment_clean
  fragment_head := hfragment ▸ hw.wf.fragment_head

lemma wf_noHost : Authority.WF ⟨[], false, [], []⟩ where
  userinfo_clean := clean_nil
  userinfo_at := List.not_mem_nil
  host_clean := clean_nil
  host_valid := rfl
  host_colon _ := List.not_mem_nil
  port_ok h := absurd rfl h

/-- The authority of a reference over a base with neither brackets nor a port. -/
lemma wf_overwrite (hB : B.authorityParts.WF) (hport : B.port = [])
    (hliteral : B.hostIpLiteral = false) (hR : R.authorityParts.WF) :
    (B.overwrite R.authorityParts).authorityParts.WF := by
  have hport' : (B.overwrite R.authorityParts).port = R.port := by
    by_cases h : R.port = [] <;> simp [overwrite, authorityParts, h, hport]
  have hliteral' : (B.overwrite R.authorityParts).hostIpLiteral = R.hostIpLiteral := by
    simp [overwrite, authorityParts, hliteral]
  have huser : (B.overwrite R.authorityParts).userinfo = B.userinfo ∨
      (B.overwrite R.authorityParts).userinfo = R.userinfo := by
    by_cases h : R.userinfo = [] <;> simp [overwrite, authorityParts, h]
  refine ⟨?_, ?_, hR.host_clean, hR.host_valid, ?_, ?_⟩
  · rcases huser with h | h <;> rw [authorityParts, h]
    exacts [hB.userinfo_clean, hR.userinfo_clean]
  · rcases huser with h | h <;> rw [authorityParts, h]
    exacts [hB.userinfo_at, hR.userinfo_at]
  · rw [authorityParts, hliteral']
    exact hR.host_colon
  · rw [authorityParts, hport', hliteral']
    exact hR.port_ok

/-- What `merge_ref` makes of a normalized reference has the text of a URL like those that `assign`
builds, with the scheme of the base. -/
lemma Composed.mergeRef (hB : Composed B) (hs : B.scheme ≠ []) (hport : B.port = [])
    (hliteral : B.hostIpLiteral = false) (hw : Accepted w) (hws : w.scheme = [])
    (hv : B.mergeRef w.normalizePath = .ok v) :
    ∃ v', Composed v' ∧ v'.get = v.get ∧ v'.scheme = B.scheme := by
  cases ha : w.hasAuthority with
  | false =>
      rw [mergeRef_path (hw.syntaxOk_normalizePath ha) hws ha hw.wf.query_clean
        hw.wf.fragment_clean hs, Except.ok.injEq] at hv
      refine ⟨v, ?_, rfl, hv ▸ rfl⟩
      subst hv
      refine hB.merged hB.authority hB.hasAuthority rfl ?_ ?_ hw ?_ rfl
      · simp only
        split
        · exact hB.path
        · exact (Path.slashLocal_clean (by decide)).get_merge hB.path (clean_normalizePath hw)
      · simp only
        split
        · exact hB.slashBegin
        · exact Path.slashBegin_merge _ hB.slashBegin
      · simp only
        split
        · exact .inl rfl
        · exact .inr rfl
  | true =>
      have hR := hw.normalizePath ha
      have hpath : ((Path.assign w.normalizePath.path.get).setAbsolute true).get =
          w.normalizePath.path.get := by
        have habs := slashBegin_assign_get (hR.absolute ha)
        rw [Path.setAbsolute, ← habs]
        exact Path.get_assign_get _
      have hquery : ∀ q : Str, (if q.isEmpty then B.query else q) = B.query ∨
          (if q.isEmpty then B.query else q) = q := fun q => by
        split
        · exact .inl rfl
        · exact .inr rfl
      by_cases hh : w.host = []
      · rw [mergeRef_noHost hR hs hws ha hh, Except.ok.injEq] at hv
        refine ⟨{ v with userinfo := [], hostIpLiteral := false, port := [] }, ?_, ?_, hv ▸ rfl⟩
        · subst hv
          refine hB.merged wf_noHost rfl rfl ?_ rfl hR (hquery _) rfl
          rw [hpath]
          exact clean_normalizePath hw
        · subst hv
          simp [get, Url.authority]
      · rw [mergeRef_network hR hs hws hh, Except.ok.injEq] at hv
        refine ⟨v, ?_, rfl, hv ▸ rfl⟩
        subst hv
        refine hB.merged (wf_overwrite hB.authority hport hliteral (hR.authority_wf hh)) rfl rfl ?_
          rfl hR (hquery _) rfl
        rw [hpath]
        exact clean_normalizePath hw

/-! ### The text -/

/-- A printable character other than the space. -/
def printable (c : UInt8) : Bool := 0x20 < c && c < 0x7F

/-- The masks of the components flag every other character. -/
lemma urlCharTest_of_not_printable (c : UInt8) : printable c = false →
    c ≠ Byte.percent ∧ urlCharTest c urlCharAuth = true ∧ urlCharTest c urlCharPath = true ∧
      urlCharTest c urlCharQuery = true ∧ urlCharTest c urlCharFragment = true := by
  revert c
  apply Byte.forall_of_lt
  decide +kernel

lemma printable_of_clean {mask : UInt8} {s : Str} (h : Clean mask s)
    (hmask : ∀ c, printable c = false → urlCharTest c mask = true) :
    ∀ c ∈ s, printable c = true := by
  intro c hc
  by_contra hp
  have hp : printable c = false := by simpa using hp
  exact h.not_mem (hmask c hp) (urlCharTest_of_not_printable c hp).1 hc

lemma printable_of_reScheme {s : Str} (h : reScheme.accepts s = true) :
    ∀ c ∈ s, printable c = true := by
  rw [Lib.Regex.accepts_iff] at h
  have hextra : lit "+.-" = [0x2B, 0x2E, 0x2D] := rfl
  refine h.forall_mem ⟨fun c hc => ?_, fun c hc => ?_⟩
  · simp only [isAlpha, printable, Bool.or_eq_true, Bool.and_eq_true, decide_eq_true_eq] at hc ⊢
    grind
  · simp only [hextra, isAlnum, isAlpha, isDigit, printable, Bool.or_eq_true, Bool.and_eq_true,
      decide_eq_true_eq, List.contains_iff_mem] at hc ⊢
    grind

lemma forall_mem_ite {p : Prop} [Decidable p] {P : UInt8 → Prop} {s t : Str} (hs : ∀ c ∈ s, P c)
    (ht : ∀ c ∈ t, P c) : ∀ c ∈ (if p then s else t), P c := by
  split
  · exact hs
  · exact ht

lemma Composed.printable_authority (h : Composed u) : ∀ c ∈ u.authority, printable c = true := by
  have hauth := fun c hc => (urlCharTest_of_not_printable c hc).2.1
  have huser := printable_of_clean h.authority.userinfo_clean hauth
  have hhost := printable_of_clean h.authority.host_clean hauth
  have hport : ∀ c ∈ u.port, printable c = true := by
    intro c hc
    have hdigit := isDigit_of_rePort (h.authority.port_ok (List.ne_nil_of_mem hc)).2.2.1 c hc
    simp only [isDigit, printable, Bool.and_eq_true, decide_eq_true_eq] at hdigit ⊢
    grind
  refine forall_mem_ite (by simp) ?_
  simp only [List.forall_mem_append]
  refine ⟨⟨forall_mem_ite (by simp) ?_, forall_mem_ite ?_ hhost⟩, forall_mem_ite (by simp) ?_⟩
  · exact List.forall_mem_append.2 ⟨huser, List.forall_mem_singleton.2 (by decide)⟩
  · exact List.forall_mem_append.2
      ⟨List.forall_mem_cons.2 ⟨by decide, hhost⟩, List.forall_mem_singleton.2 (by decide)⟩
  · exact List.forall_mem_cons.2 ⟨by decide, hport⟩

/-- The text of a URL is printable. -/
lemma Composed.printable_get (h : Composed u) : ∀ c ∈ u.get, printable c = true := by
  have hscheme : ∀ c ∈ u.scheme, printable c = true := fun c hc =>
    printable_of_reScheme (h.scheme (List.ne_nil_of_mem hc)).1 c hc
  have hpath := printable_of_clean h.path fun c hc => (urlCharTest_of_not_printable c hc).2.2.1
  have hquery := printable_of_clean h.query fun c hc => (urlCharTest_of_not_printable c hc).2.2.2.1
  have hfragment := printable_of_clean h.fragment fun c hc =>
    (urlCharTest_of_not_printable c hc).2.2.2.2
  simp only [get, List.forall_mem_append]
  refine ⟨⟨⟨⟨forall_mem_ite (by simp) ?_, forall_mem_ite ?_ (by simp)⟩, hpath⟩, hquery⟩, hfragment⟩
  · exact List.forall_mem_append.2 ⟨hscheme, List.forall_mem_singleton.2 (by decide)⟩
  · exact List.forall_mem_cons.2 ⟨by decide, List.forall_mem_cons.2
      ⟨by decide, h.printable_authority⟩⟩

/-- The text of an accepted URL is read back, unless it has an empty authority. -/
lemma Accepted.assign_get (h : Accepted u) :
    assign u.get = .ok u.parts.toUrl ∧ u.parts.toUrl.get = u.get ∧
        u.parts.toUrl.scheme = u.scheme ∨
      (u.scheme ≠ [] ∧ u.scheme ≠ lit "file" ∧ u.host = []) ∧
        assign u.get = .error Parts.emptyAuthority := by
  by_cases hr : u.parts.Readable
  · left
    refine ⟨?_, get_toUrl_parts h, by rw [toUrl_parts h]⟩
    rw [← print_parts]
    exact Parts.assign_print h.wf hr
  · right
    refine ⟨?_, ?_⟩
    · have hnot := (readable_parts_iff h).not.1 hr
      push Not at hnot
      exact hnot
    · rw [← print_parts]
      exact Parts.assign_print_error h.wf hr

end Url

end Mycelium
