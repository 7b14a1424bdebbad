import Mycelium.Common.UrlRoundTrip
import Mycelium.Common.Rfc3986

/-!
# Merging references

`merge_ref` on the two kinds of references without a scheme.  A network-path reference goes
through the authority setter, which overwrites what the new authority mentions and nothing else;
what survives of the base is made exact.  For a relative path the result is the one of
RFC 3986, section 5.2.
-/

namespace Mycelium

namespace Url

variable {B R : Url}

/-- The authority of a URL. -/
def authorityParts (u : Url) : Authority :=
  { userinfo := u.userinfo, literal := u.hostIpLiteral, host := u.host, port := u.port }

lemma Accepted.authority_wf (h : Accepted R) (hh : R.host ≠ []) : R.authorityParts.WF :=
  h.wf.authority_wf _ (by simp [parts, h.hasAuthority_of_host hh, authorityParts])

lemma authority_eq_print (u : Url) : u.authority = u.authorityParts.print := by
  rw [authority, Authority.print, Authority.hostPort, List.append_assoc]
  rfl

/-! ### Network-path references -/

/-- The result of merging a network-path reference. -/
lemma mergeRef_network (hR : Accepted R) (hB : B.scheme ≠ []) (hs : R.scheme = [])
    (hh : R.host ≠ []) :
    B.mergeRef R = .ok { B.overwrite R.authorityParts with
      path := (Path.assign R.path.get).setAbsolute true
      query := if R.query.isEmpty then B.query else R.query
      fragment := R.fragment } := by
  have hset := setAuthority_print B (hR.authority_wf hh) hh
  have hpath : escape R.path.get urlCharPath = R.path.get := escape_of_clean hR.wf.path_clean
  have hquery : escape R.query urlCharQuery = R.query := escape_of_clean hR.wf.query_clean
  have hfrag : escape R.fragment urlCharFragment = R.fragment :=
    escape_of_clean hR.wf.fragment_clean
  rw [mergeRef, hR.syntaxOk]
  simp only [absolute, hasScheme, hasQuery, hasFragment, hs, hR.hasAuthority_of_host hh,
    authority_eq_print, hset, List.isEmpty_iff, bind, Except.bind]
  by_cases hq : R.query = [] <;> by_cases hf : R.fragment = [] <;>
    simp [hB, hq, hf, setPath, setQuery, setFragment, clearFragment, hpath, hquery, hfrag,
      overwrite]

/-- The merged URL has the scheme of the base and everything else from the reference. -/
def OnlyScheme (B R v : Url) : Prop :=
  v.scheme = B.scheme ∧ v.userinfo = R.userinfo ∧ v.host = R.host ∧
    v.hostIpLiteral = R.hostIpLiteral ∧ v.port = R.port ∧ v.path.get = R.path.get ∧
    v.query = R.query ∧ v.fragment = R.fragment

lemma get_setAbsolute_assign (hR : Accepted R) (hh : R.host ≠ []) :
    ((Path.assign R.path.get).setAbsolute true).get = R.path.get := by
  have habs := slashBegin_assign_get (hR.absolute (hR.hasAuthority_of_host hh))
  rw [Path.setAbsolute, ← habs]
  exact Path.get_assign_get R.path

/-- A component that is overwritten only when it is there. -/
lemma overwrite_eq_iff {x y : Str} : (if y.isEmpty then x else y) = y ↔ x = [] ∨ y ≠ [] := by
  by_cases hy : y = []
  · simp [hy]
  · simp [hy]

lemma or_eq_right_iff {x y : Bool} : (x || y) = y ↔ x = false ∨ y = true := by
  cases x <;> cases y <;> decide

/-- A network-path reference takes nothing but the scheme from the base exactly when the
reference has every one of the userinfo, the brackets, the port and the query that the base
has: the setters leave what the reference does not mention. -/
theorem mergeRef_onlyScheme_iff {b r : Str} (_hB : assign b = .ok B) (hR : assign r = .ok R)
    (habs : B.absolute = true) (hs : R.scheme = []) (hh : R.host ≠ []) :
    (∃ v, B.mergeRef R = .ok v ∧ OnlyScheme B R v) ↔
      (B.userinfo = [] ∨ R.userinfo ≠ []) ∧ (B.hostIpLiteral = false ∨ R.hostIpLiteral = true) ∧
        (B.port = [] ∨ R.port ≠ []) ∧ (B.query = [] ∨ R.query ≠ []) := by
  have hacc := accepted_of_assign hR
  have hB : B.scheme ≠ [] := by simpa [absolute] using habs
  have hpath := get_setAbsolute_assign hacc hh
  rw [mergeRef_network hacc hB hs hh]
  rw [← overwrite_eq_iff, ← or_eq_right_iff, ← overwrite_eq_iff, ← overwrite_eq_iff]
  constructor
  · rintro ⟨v, hv, -, hui, -, hl, hport, -, hq, -⟩
    obtain rfl := Except.ok.inj hv
    exact ⟨hui, hl, hport, hq⟩
  · rintro ⟨hui, hl, hport, hq⟩
    exact ⟨_, rfl, rfl, hui, rfl, hl, hport, hpath, hq, rfl⟩

theorem mergeRef_onlyScheme_iff_port :
    (∃ v, mergeRef { scheme := lit "http", hasAuthority := true, host := lit "a", port := lit "80"
                     path := Path.assign (lit "/x") }
        { hasAuthority := true, host := lit "b", port := lit "81", path := Path.assign (lit "/y") }
        = .ok v ∧
      OnlyScheme { scheme := lit "http", hasAuthority := true, host := lit "a", port := lit "80"
                   path := Path.assign (lit "/x") }
        { hasAuthority := true, host := lit "b", port := lit "81"
          path := Path.assign (lit "/y") } v) ↔
      (([] : Str) = [] ∨ ([] : Str) ≠ []) ∧ (false = false ∨ false = true) ∧
        (lit "80" = [] ∨ lit "81" ≠ []) ∧ (([] : Str) = [] ∨ ([] : Str) ≠ []) :=
  mergeRef_onlyScheme_iff (b := lit "http://a:80/x") (r := lit "//b:81/y") rfl rfl rfl rfl
    (by decide)

/-- The credentials, the port and the query of the base are sent to the other host. -/
theorem not_onlyScheme_credentials :
    ∃ B R, assign (lit "http://u:p@a:8080/x?k") = .ok B ∧ assign (lit "//b/y") = .ok R ∧
      B.absolute = true ∧ R.scheme = [] ∧ R.host ≠ [] ∧
      (∃ v, B.mergeRef R = .ok v ∧ v.get = lit "http://u:p@b:8080/y?k") ∧
      ¬ ∃ v, B.mergeRef R = .ok v ∧ OnlyScheme B R v := by
  refine ⟨{ scheme := lit "http", hasAuthority := true, userinfo := lit "u:p", host := lit "a"
            port := lit "8080", path := Path.assign (lit "/x"), query := lit "?k" },
    { hasAuthority := true, host := lit "b", path := Path.assign (lit "/y") },
    rfl, rfl, rfl, rfl, by decide, ⟨_, rfl, rfl⟩, ?_⟩
  rintro ⟨v, hv, -, hui, -⟩
  obtain rfl := Except.ok.inj hv
  exact absurd hui (by decide)

/-! ### Relative paths -/

/-- A URL as a reference of the RFC; the delimiters of the query and the fragment are not part
of them. -/
def ref (u : Url) : Rfc3986.Ref where
  scheme := group u.scheme
  authority := if u.hasAuthority then some u.authority else none
  path := u.path.get
  query := (group u.query).map List.tail
  fragment := (group u.fragment).map List.tail

/-- What `merge_ref` gives for a reference with neither scheme nor authority. -/
lemma mergeRef_relative (hR : Accepted R) (hB : B.scheme ≠ []) (ha : R.hasAuthority = false) :
    B.mergeRef R = .ok { B with
      path := if R.path.empty then B.path else B.path.merge R.path
      query := if R.path.empty && R.query.isEmpty then B.query else R.query
      fragment := R.fragment } := by
  have hs : R.scheme = [] := (hR.blank ha).1
  have hquery : escape R.query urlCharQuery = R.query := escape_of_clean hR.wf.query_clean
  have hfrag : escape R.fragment urlCharFragment = R.fragment :=
    escape_of_clean hR.wf.fragment_clean
  rw [mergeRef, hR.syntaxOk]
  simp only [absolute, hasScheme, hasQuery, hasFragment, hs, ha, bind, Except.bind]
  cases hp : R.path.empty <;> by_cases hq : R.query = [] <;> by_cases hf : R.fragment = [] <;>
    simp [hB, hq, hf, setQuery, setFragment, clearQuery, clearFragment, hquery, hfrag]

/-- The segments of the base that `Path::merge` keeps. -/
def kept (p : Path) : List Segment :=
  if !p.slashEnd && !p.segmt.isEmpty then p.segmt.dropLast else p.segmt

/-- The text of the base path up to its last slash. -/
lemma reverse_dropWhile_get {p : Path} (h : p.slashBegin = true) :
    (p.get.reverse.dropWhile (· != Byte.slash)).reverse
      = Rfc3986.slashed (kept p) ++ [Byte.slash] := by
  rw [Rfc3986.absText_eq_get h, Rfc3986.absText, kept]
  rcases List.eq_nil_or_concat p.segmt with hs | ⟨segs, s, hs⟩
  · simp [hs]
  · rw [List.concat_eq_append] at hs
    rw [if_neg (by simp [hs])]
    cases he : p.slashEnd with
    | true => simp [Rfc3986.tail]
    | false =>
        have hcond : (!false && !p.segmt.isEmpty) = true := by simp [hs]
        rw [if_pos hcond, hs, Rfc3986.slashed_concat, Rfc3986.tail, if_neg (by simp),
          List.append_nil, Rfc3986.reverse_dropWhile_segment, List.dropLast_concat]

lemma mem_kept {p : Path} {s : Segment} (h : s ∈ kept p) : s ∈ p.segmt := by
  rw [kept] at h
  split at h
  · exact List.mem_of_mem_dropLast h
  · exact h

/-- A path that is not empty and does not begin with a slash. -/
lemma relative_path {p : Path} (hne : p.empty = false) (hrel : p.get.head? ≠ some Byte.slash) :
    p.slashBegin = false ∧ p.segmt ≠ [] := by
  have hb : p.slashBegin = false := by
    by_contra hb
    obtain ⟨t, ht⟩ := p.get_head.1 (by simpa using hb)
    exact hrel (by rw [ht]; rfl)
  refine ⟨hb, fun hs => ?_⟩
  have he : p.slashEnd = true := by
    by_contra he
    exact absurd hne (by simp [Path.empty, hs, hb, he])
  rw [Path.get_of_segmt_eq_nil hs, he, Bool.or_true] at hrel
  exact hrel rfl

lemma get_merge {p q : Path} (hp : p.slashBegin = true) (hq : q.slashBegin = false)
    (hempty : q.empty = false) :
    (p.merge q).get = Rfc3986.absText (q.segmt.foldl Path.mergeStep (kept p, p.slashEnd)).1
      ((q.segmt.foldl Path.mergeStep (kept p, p.slashEnd)).2 || q.slashEnd) := by
  have hmerge : p.merge q =
      { p with
        segmt := (q.segmt.foldl Path.mergeStep (kept p, p.slashEnd)).1
        slashEnd := (q.segmt.foldl Path.mergeStep (kept p, p.slashEnd)).2 || q.slashEnd } := by
    rw [Path.merge, if_neg (by simp [hq])]
    simp only [hempty, Bool.not_false, Bool.and_true, kept]
  rw [Rfc3986.absText_eq_get (by rw [hmerge]; exact hp), hmerge]

/-- The path of the merged URL is the one of the RFC. -/
lemma get_merge_eq_removeDotSegments {p q : Path} (hp : p.slashBegin = true)
    (hdots : ∀ s ∈ p.segmt, s ≠ Segment.dot ∧ s ≠ Segment.dotdot) (hq : q.slashBegin = false)
    (hne : q.segmt ≠ []) :
    (p.merge q).get = Rfc3986.removeDotSegments []
      ((p.get.reverse.dropWhile (· != Byte.slash)).reverse ++ q.get) := by
  have htext : (p.get.reverse.dropWhile (· != Byte.slash)).reverse ++ q.get
      = Rfc3986.slashed (kept p) ++ (Rfc3986.slashed q.segmt ++ Rfc3986.tail q.slashEnd) := by
    rw [reverse_dropWhile_get hp, Path.get_of_segmt_ne_nil hne, hq, Rfc3986.slashed_eq_join hne,
      Rfc3986.tail]
    simp
  rw [get_merge hp hq (by simp [Path.empty, hne]), htext,
    Rfc3986.removeDotSegments_copy (fun s hs => hdots s (mem_kept hs))
      (Rfc3986.head?_slashed_tail _ _),
    List.nil_append]
  exact (Rfc3986.removeDotSegments_eq_foldl _ _ _ _ (Or.inl hne)).symm

lemma group_eq_none_iff {s : Str} : group s = none ↔ s = [] := by
  by_cases h : s = []
  · simp [group, h]
  · simp [group, h]

/-- Resolving a relative-path reference, a query or a fragment against a base with a host is the
transformation of the RFC; the other components of the base stay. -/
theorem mergeRef_eq_transform {b r : Str} (hB : assign b = .ok B) (hR : assign r = .ok R)
    (habs : B.absolute = true) (hhost : B.host ≠ [])
    (hdots : ∀ s ∈ B.path.segmt, s ≠ Segment.dot ∧ s ≠ Segment.dotdot) (hs : R.scheme = [])
    (ha : R.hasAuthority = false) (hrel : R.path.get.head? ≠ some Byte.slash) :
    ∃ v, B.mergeRef R = .ok v ∧ v.scheme = B.scheme ∧ v.userinfo = B.userinfo ∧
      v.hostIpLiteral = B.hostIpLiteral ∧ v.host = B.host ∧ v.port = B.port ∧
      v.ref = Rfc3986.transform B.ref R.ref := by
  have haccB := accepted_of_assign hB
  have haccR := accepted_of_assign hR
  have hBs : B.scheme ≠ [] := by simpa [absolute] using habs
  have hBa := haccB.hasAuthority_of_host hhost
  refine ⟨_, mergeRef_relative haccR hBs ha, rfl, rfl, rfl, rfl, rfl, ?_⟩
  -- the path of a base with a host is never empty, so that 5.2.3 takes its second case
  have hslash := haccB.absolute hBa
  have hBpath : B.path.get ≠ [] := by
    obtain ⟨t, ht⟩ := B.path.get_head.1 hslash
    simp [ht]
  have hempty : R.path.get.isEmpty = R.path.empty := by
    rw [Bool.eq_iff_iff, List.isEmpty_iff]
    exact Path.get_eq_nil_iff
  have hquery : (group R.query).isNone = R.query.isEmpty := by
    rw [Bool.eq_iff_iff, Option.isNone_iff_eq_none, List.isEmpty_iff]
    exact group_eq_none_iff
  have hpath : R.path.empty = false → (B.path.merge R.path).get
      = Rfc3986.removeDotSegments [] (Rfc3986.merge B.ref R.path.get) := by
    intro hp
    obtain ⟨hq, hne⟩ := relative_path hp hrel
    rw [get_merge_eq_removeDotSegments hslash hdots hq hne, Rfc3986.merge, if_neg]
    · rfl
    · simp [ref, hBpath]
  have hscheme : R.ref.scheme.isSome = false := by simp [ref, group, hs]
  have hauth : R.ref.authority.isSome = false := by simp [ref, ha]
  simp only [Rfc3986.transform, hscheme, hauth, Bool.false_eq_true, if_false]
  simp only [ref, Rfc3986.Ref.mk.injEq, Option.isNone_map, hempty, hquery]
  -- the path and the query are left
  refine ⟨trivial, rfl, ?_, ?_, trivial⟩
  · cases hp : R.path.empty with
    | true => rfl
    | false =>
        rw [if_neg (by simp), if_neg (by simp)]
        exact (hpath hp).trans (if_neg hrel).symm
  · cases R.path.empty && R.query.isEmpty <;> rfl

theorem mergeRef_eq_transform_dotdot :
    ∃ B R, assign (lit "http://u@a:80/b/c?q") = .ok B ∧ assign (lit "../.././d/?#f") = .ok R ∧
      ∃ v, B.mergeRef R = .ok v ∧ v.scheme = B.scheme ∧ v.userinfo = B.userinfo ∧
        v.hostIpLiteral = B.hostIpLiteral ∧ v.host = B.host ∧ v.port = B.port ∧
        v.ref = Rfc3986.transform B.ref R.ref := by
  refine ⟨{ scheme := lit "http", hasAuthority := true, userinfo := lit "u", host := lit "a"
            port := lit "80", path := Path.assign (lit "/b/c"), query := lit "?q" },
    { path := Path.assign (lit "../.././d/"), query := lit "?", fragment := lit "#f" },
    rfl, rfl, ?_⟩
  exact mergeRef_eq_transform (b := lit "http://u@a:80/b/c?q") (r := lit "../.././d/?#f") rfl rfl
    rfl (by decide) (by decide) rfl rfl (by decide)

end Url

end Mycelium
