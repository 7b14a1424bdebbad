import Mycelium.Common.UrlNormalize

/-!
# Normalizing URLs twice

The database key of a document and the comparison of URLs rest on `normalize` giving a canonical
form.  The second run of `normalize` finds the escapes and the path as the first one has left them.
It does not always find the host so: `normalize` lowers the host before it decodes its escapes, and
a letter that an escape has hidden comes out in upper case.
-/

namespace Mycelium

namespace Url

/-! ### The host -/

/-- No escape of the host stands for a letter in upper case. -/
def NoUpperEscape (h : Str) : Prop :=
  ∀ a b, Tok.esc a b ∈ tokens h → toLower (x2digitsToNum a b) = x2digitsToNum a b

lemma hostNormal_hostNormal {h : Str} (hv : validHost h = true) :
    hostNormal (hostNormal h) = (hostNormal h).map toLower := by
  have hpct := percent_not_mem_hostNormal hv
  refine normalizeEscapes_of_not_mem fun hm => ?_
  obtain ⟨c, hc, hlow⟩ := List.mem_map.1 hm
  have hbeq := toLower_beq_percent c
  rw [hlow, beq_self_eq_true] at hbeq
  exact hpct (beq_iff_eq.1 hbeq.symm ▸ hc)

lemma hostNormal_hostNormal_iff {h : Str} (hv : validHost h = true) :
    hostNormal (hostNormal h) = hostNormal h ↔ NoUpperEscape h := by
  have hfix : (hostNormal h).map toLower = hostNormal h ↔ ∀ c ∈ hostNormal h, toLower c = c := by
    simpa using List.map_eq_map_iff (f := toLower) (g := id) (l := hostNormal h)
  rw [hostNormal_hostNormal hv, hfix, hostNormal_eq_map hv, List.forall_mem_map]
  constructor
  · intro hall a b hab
    exact hall _ hab
  · intro hno t ht
    cases t with
    | raw c => exact toLower_toLower c
    | esc a b => exact hno a b ht

/-! ### The normal form is accepted -/

/-- The path of an accepted URL with an authority can be normalized alone. -/
lemma Accepted.normalizePath {u : Url} (h : Accepted u) (ha : u.hasAuthority = true) :
    Accepted u.normalizePath := by
  have hauth : u.parts.authority ≠ none := by simp [parts, ha]
  have hclean : Clean urlCharPath u.path.normalize.get :=
    (Path.slashLocal_clean (by decide)).get_normalize h.wf.path_clean
  have hbegin : u.path.normalize.slashBegin = true :=
    (Path.slashBegin_normalize u.path).trans (h.absolute ha)
  refine ⟨⟨h.wf.scheme_ok, h.wf.authority_wf, hclean, fun _ => ?_, fun hn => absurd hn hauth,
    fun hn => absurd hn hauth, h.wf.query_clean, h.wf.query_head, h.wf.fragment_clean,
    h.wf.fragment_head⟩, ?_, fun _ => hbegin, fun hn => absurd (ha.symm.trans hn) (by simp)⟩
  · obtain ⟨t, ht⟩ := (Path.get_head _).1 hbegin
    intro c hc
    simp only [parts, Url.normalizePath, ht, List.head?_cons, Option.mem_some_iff] at hc
    exact hc.symm
  · have hdelim := not_pathDelim_of_clean hclean
    have hok := h.syntaxOk
    simp only [Url.syntaxOk, Bool.and_eq_true, Bool.not_eq_true', List.any_eq_false] at hok ⊢
    obtain ⟨⟨⟨⟨⟨-, hscheme⟩, hhost⟩, hvalid⟩, -⟩, hquery⟩ := hok
    refine ⟨⟨⟨⟨⟨?_, hscheme⟩, hhost⟩, hvalid⟩, ?_⟩, hquery⟩
    · simp [Url.normalizePath, hbegin]
    · exact fun c hc => by simp [hdelim c hc]

section Normal

variable {u v : Url}

/-- `normalize` succeeds on an accepted URL with a host, and gives an accepted URL again; its parts
are the normal forms of the parts. -/
lemma Accepted.normalize_ok (h : Accepted u) (hhost : u.host ≠ []) :
    ∃ v, u.normalize = .ok v ∧ Accepted v ∧ v.host = hostNormal u.host ∧ v.host ≠ [] ∧
      v.parts = { u.parts.normal with path :=
          ((Path.assign (Mycelium.normalizeEscapes u.path.get)).setAbsolute true).normalize.get } :=
  by
  have ha := h.hasAuthority_of_host hhost
  have hr := (readable_parts_iff h).2 (Or.inr (Or.inr hhost))
  have hne : hostNormal u.host ≠ [] := (hostNormal_eq_nil_iff h.host_valid).not.2 hhost
  have hacc := accepted_of_assign (Parts.assign_print h.wf.normal ((readable_normal_iff h.wf).2 hr))
  have hnorm := normalize_of_readable h hr
  have hv := host_normalize h hnorm
  refine ⟨_, hnorm, hacc.normalizePath ?_, hv, hv ▸ hne, ?_⟩
  · simp [Parts.toUrl, Parts.normal, parts, ha]
  · simp [Parts.toUrl, Parts.normal, parts, ha, Url.normalizePath, Authority.normal, hne]

/-- The second run changes at most the host. -/
lemma Accepted.normalize_twice (h : Accepted u) (hhost : u.host ≠ []) :
    ∃ v w, u.normalize = .ok v ∧ v.normalize = .ok w ∧ Accepted v ∧ Accepted w ∧
      v.host = hostNormal u.host ∧ w.host = hostNormal v.host ∧
      w.parts = { v.parts with
        authority := v.parts.authority.map fun a => { a with host := hostNormal a.host } } := by
  obtain ⟨v, hv, hacc, hvh, hne, hparts⟩ := h.normalize_ok hhost
  obtain ⟨w, hw, hacc', hwh, -, hparts'⟩ := hacc.normalize_ok hne
  refine ⟨v, w, hv, hw, hacc, hacc', hvh, hwh, ?_⟩
  have ha := h.hasAuthority_of_host hhost
  -- what the first run has normalized is stable
  have huser : Stable (Mycelium.normalizeEscapes u.userinfo) :=
    stable_normalizeEscapes ((h.wf.authority_wf _ (by rw [parts, ha]; rfl)).userinfo_clean.closed
      percent_auth)
  have hquery : Stable (Mycelium.normalizeEscapes u.query) :=
    stable_normalizeEscapes (h.wf.query_clean.closed percent_query)
  have hfragment : Stable (Mycelium.normalizeEscapes u.fragment) :=
    stable_normalizeEscapes (h.wf.fragment_clean.closed percent_fragment)
  obtain ⟨p, hp⟩ : ∃ p, p = (Path.assign (Mycelium.normalizeEscapes u.path.get)).setAbsolute true :=
    ⟨_, rfl⟩
  have hvpath : v.path.get = p.normalize.get := hp ▸ congrArg Parts.path hparts
  have hpath : Stable p.normalize.get := by
    refine Path.slashLocal_stable.get_normalize (Path.slashLocal_stable.get ?_)
    rw [hp]
    exact Path.slashLocal_stable.segmt_assign
      (stable_normalizeEscapes (h.wf.path_clean.closed percent_path))
  rw [hvpath, hpath.eq, Path.get_normalize_reread (by rw [hp]; rfl)] at hparts'
  rw [hparts', hparts, ← hp]
  simp [Parts.normal, parts, ha, Authority.normal, huser.eq, hquery.eq, hfragment.eq]

end Normal

/-- With the host of the first run, the second run has its authority, query and fragment. -/
lemma Accepted.authority_normalize_twice {u v w : Url} (h : Accepted u) (hhost : u.host ≠ [])
    (hv : u.normalize = .ok v) (hw : v.normalize = .ok w) :
    { w with host := v.host }.authority = v.authority ∧ w.query = v.query ∧
      w.fragment = v.fragment := by
  obtain ⟨v', w', hv', hw', haccv, haccw, hvh, hwh, hparts⟩ := h.normalize_twice hhost
  obtain rfl := Except.ok.inj (hv.symm.trans hv')
  obtain rfl := Except.ok.inj (hw.symm.trans hw')
  have hne : v.host ≠ [] := by
    rw [hvh]
    exact (hostNormal_eq_nil_iff h.host_valid).not.2 hhost
  have hne' : w.host ≠ [] := by
    rw [hwh]
    exact (hostNormal_eq_nil_iff haccv.host_valid).not.2 hne
  have hauth := congrArg Parts.authority hparts
  simp only [parts, haccv.hasAuthority_of_host hne, haccw.hasAuthority_of_host hne', if_true,
    Option.map_some, Option.some.injEq, Authority.mk.injEq] at hauth
  obtain ⟨huser, hliteral, -, hport⟩ := hauth
  exact ⟨by simp [authority, huser, hliteral, hport], congrArg Parts.query hparts,
    congrArg Parts.fragment hparts⟩

/-- `normalize` keeps the query and the fragment, if there are any. -/
lemma Accepted.query_normalize {u v : Url} (h : Accepted u) (hhost : u.host ≠ [])
    (hv : u.normalize = .ok v) :
    (v.query = [] ↔ u.query = []) ∧ (v.fragment = [] ↔ u.fragment = []) := by
  obtain ⟨v', hv', -, -, -, hparts⟩ := h.normalize_ok hhost
  obtain rfl := Except.ok.inj (hv.symm.trans hv')
  have hquery : v.query = Mycelium.normalizeEscapes u.query := congrArg Parts.query hparts
  have hfragment : v.fragment = Mycelium.normalizeEscapes u.fragment :=
    congrArg Parts.fragment hparts
  rw [hquery, hfragment]
  exact ⟨normalizeEscapes_eq_nil_iff (h.wf.query_clean.closed percent_query),
    normalizeEscapes_eq_nil_iff (h.wf.fragment_clean.closed percent_fragment)⟩

/-- The text of an accepted URL tells its host. -/
lemma Accepted.host_eq_of_get {u v : Url} (hu : Accepted u) (hv : Accepted v) (hhu : u.host ≠ [])
    (hhv : v.host ≠ []) (h : u.get = v.get) : u.host = v.host := by
  have hread : ∀ {w : Url}, Accepted w → w.host ≠ [] → assign w.get = .ok w.parts.toUrl := by
    intro w hw hne
    rw [← print_parts]
    exact Parts.assign_print hw.wf ((readable_parts_iff hw).2 (Or.inr (Or.inr hne)))
  have heq := (hread hu hhu).symm.trans (h ▸ hread hv hhv)
  have hhost := congrArg Url.host (Except.ok.inj heq)
  rwa [toUrl_parts hu, toUrl_parts hv] at hhost

/-- Normalizing an accepted URL with a host twice gives the text of normalizing it once exactly when
no escape of its host stands for a letter in upper case. -/
theorem normalize_idempotent_iff {s : Str} {u : Url} (h : assign s = .ok u) (hhost : u.host ≠ []) :
    (∃ v w, u.normalize = .ok v ∧ v.normalize = .ok w ∧ w.get = v.get) ↔ NoUpperEscape u.host := by
  have hacc := accepted_of_assign h
  obtain ⟨v, w, hv, hw, haccv, haccw, hvh, hwh, hparts⟩ := hacc.normalize_twice hhost
  have hne : hostNormal u.host ≠ [] := (hostNormal_eq_nil_iff hacc.host_valid).not.2 hhost
  have hne' : hostNormal v.host ≠ [] := (hostNormal_eq_nil_iff haccv.host_valid).not.2 (hvh ▸ hne)
  rw [← hostNormal_hostNormal_iff hacc.host_valid, ← hvh]
  constructor
  · rintro ⟨v', w', hv', hw', hget⟩
    obtain rfl := Except.ok.inj (hv.symm.trans hv')
    obtain rfl := Except.ok.inj (hw.symm.trans hw')
    rw [← hwh]
    exact haccw.host_eq_of_get haccv (hwh ▸ hne') (hvh ▸ hne) hget
  · intro hfix
    refine ⟨v, w, hv, hw, ?_⟩
    have hauth : v.hasAuthority = true := haccv.hasAuthority_of_host (hvh ▸ hne)
    rw [← print_parts, ← print_parts, hparts]
    simp [parts, hauth, hfix]

/-- An escaped letter in lower case, an escaped slash and dots in the path. -/
theorem normalize_idempotent_iff_lower :
    (∃ v w, normalize { scheme := lit "http", hasAuthority := true, host := lit "A%62"
                        path := Path.assign (lit "/x/%2e%2e/%2f") } = .ok v ∧
      v.normalize = .ok w ∧ w.get = v.get) ↔ NoUpperEscape (lit "A%62") :=
  normalize_idempotent_iff (s := lit "http://A%62/x/%2e%2e/%2f") rfl (by decide)

/-- The letter that is escaped in `http://%41/` is lowered by the second run only. -/
theorem not_normalize_idempotent_upper :
    ∃ u v w, assign (lit "http://%41/") = .ok u ∧ u.host ≠ [] ∧ u.normalize = .ok v ∧
      v.normalize = .ok w ∧ v.get = lit "http://A/" ∧ w.get = lit "http://a/" ∧ w.get ≠ v.get :=
  ⟨{ scheme := lit "http", hasAuthority := true, host := lit "%41", path := Path.assign (lit "/") },
    { scheme := lit "http", hasAuthority := true, host := lit "A", path := Path.assign (lit "/") },
    { scheme := lit "http", hasAuthority := true, host := lit "a", path := Path.assign (lit "/") },
    rfl, by decide, rfl, rfl, rfl, rfl, by decide⟩

end Url

end Mycelium
