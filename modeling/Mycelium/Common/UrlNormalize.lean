import Mycelium.Common.UrlRoundTrip

/-!
# Normalizing URLs

`normalize` prints the URL with its scheme and host in lower case, normalizes the escapes of the
printed text and reads it again.  Normalizing escapes moves no delimiter, so that the text that
is read is the print of the normalized parts, which are well formed again.  `normalize` therefore
fails only where reading a printed URL fails: when the authority is empty under a scheme other
than `file`.
-/

namespace Mycelium

namespace Url

/-! ### The normalized parts -/

/-- The authority with its host in lower case, as it is printed. -/
def Authority.lower (a : Authority) : Authority := { a with host := a.host.map toLower }

/-- The authority after normalization. -/
def Authority.normal (a : Authority) : Authority :=
  { a with userinfo := Mycelium.normalizeEscapes a.userinfo, host := hostNormal a.host }

/-- The parts after the normalization of the escapes. -/
def Parts.normal (t : Parts) : Parts where
  scheme := t.scheme
  authority := t.authority.map Authority.normal
  path := Mycelium.normalizeEscapes t.path
  query := Mycelium.normalizeEscapes t.query
  fragment := Mycelium.normalizeEscapes t.fragment

lemma clean_hostNormal {h : Str} (hv : validHost h = true) : Clean urlCharAuth (hostNormal h) := by
  have hpct := percent_not_mem_hostNormal hv
  intro c hc
  rw [tokens_of_not_mem hpct, List.mem_map] at hc
  obtain ⟨d, hd, hdc⟩ := hc
  obtain rfl : d = c := by simpa using hdc
  by_cases hne : h = []
  · subst hne
    exact absurd hd List.not_mem_nil
  · have hchar := (hostMatches_hostNormal hv hne).hostChar d hd
    clear hdc hd
    revert d
    apply Byte.forall_of_lt
    decide +kernel

lemma colon_mem_hostNormal {h : Str} (hc : Closed h) (hm : Byte.colon ∈ hostNormal h) :
    Byte.colon ∈ h := by
  rw [hostNormal, mem_normalizeEscapes_iff delim_colon (Closed.map_toLower hc),
    List.mem_map] at hm
  obtain ⟨c, hcm, hcc⟩ := hm
  have hcolon : c = Byte.colon := by
    simp only [toLower, Byte.colon, Bool.and_eq_true, decide_eq_true_eq] at hcc ⊢
    grind
  exact hcolon ▸ hcm

lemma Authority.WF.normal {a : Authority} (h : a.WF) : a.normal.WF where
  userinfo_clean := h.userinfo_clean.normalizeEscapes percent_auth
  userinfo_at hm := h.userinfo_at
    ((mem_normalizeEscapes_iff delim_atSign (h.userinfo_clean.closed percent_auth)).1 hm)
  host_clean := clean_hostNormal h.host_valid
  host_valid := validHost_hostNormal h.host_valid
  host_colon hl hm := h.host_colon hl (colon_mem_hostNormal (closed_of_validHost h.host_valid) hm)
  port_ok hp := by
    obtain ⟨hl, hhost, hre, hlt, hpos⟩ := h.port_ok hp
    exact ⟨hl, fun hn => hhost ((hostNormal_eq_nil_iff h.host_valid).1 hn), hre, hlt, hpos⟩

/-- The first character of a component stays when it is a delimiter. -/
lemma head?_normalizeEscapes {d : UInt8} (hd : Outside d) {s : Str} (hs : Closed s)
    (h : ∀ c ∈ s.head?, c = d) :
    ∀ c ∈ (Mycelium.normalizeEscapes s).head?, c = d := by
  cases s with
  | nil => exact h
  | cons e t =>
      obtain rfl := h e rfl
      have ht : Closed t := ((closed_append_cons_iff hd (s := [])).1 hs).2
      rw [normalizeEscapes_cons hd.ne_percent ht]
      simp

lemma noScheme_normalizeEscapes {p : Str} (hp : Parts.NoScheme p) (hc : Closed p)
    (hd : ∀ c ∈ p, isPathDelim c = false) : Parts.NoScheme (Mycelium.normalizeEscapes p) := by
  refine hp.transfer (fun h => (mem_normalizeEscapes_iff delim_colon hc).not.2 h) ?_
  rintro x y rfl hx
  obtain ⟨hcx, hcy⟩ := (closed_append_cons_iff delim_colon.toOutside).1 hc
  refine ⟨Mycelium.normalizeEscapes x, Mycelium.normalizeEscapes y, ?_,
    (mem_normalizeEscapes_iff delim_colon hcx).not.2 hx,
    (normalizeEscapes_eq_nil_iff hcx).2, fun c hcm hcd => ?_⟩
  · rw [normalizeEscapes_append hcx (hcy.cons delim_colon.ne_percent),
      normalizeEscapes_cons delim_colon.ne_percent hcy]
  · have hslash := eq_slash_of_delim hcd (hd c (by simp [hcm])) fun h => hx (h ▸ hcm)
    rw [hslash] at hcm ⊢
    exact (mem_normalizeEscapes_iff delim_slash hcx).2 hcm

lemma Parts.WF.normal {t : Parts} (h : t.WF) : t.normal.WF := by
  have hpath := h.path_clean.closed percent_path
  refine
    { scheme_ok := fun hs => ?_
      authority_wf := fun a ha => ?_
      path_clean := h.path_clean.normalizeEscapes percent_path
      path_slash := fun ha => ?_
      path_rootless := fun ha s hs => ?_
      path_noScheme := fun ha => ?_
      query_clean := h.query_clean.normalizeEscapes percent_query
      query_head := head?_normalizeEscapes delim_question.toOutside
        (h.query_clean.closed percent_query) h.query_head
      fragment_clean := h.fragment_clean.normalizeEscapes percent_fragment
      fragment_head := head?_normalizeEscapes delim_hash.toOutside
        (h.fragment_clean.closed percent_fragment) h.fragment_head }
  · obtain ⟨hre, hlow, ha⟩ := h.scheme_ok hs
    exact ⟨hre, hlow, by simpa [Parts.normal] using ha⟩
  · obtain ⟨a', ha', rfl⟩ := Option.map_eq_some_iff.1 ha
    exact (h.authority_wf a' ha').normal
  · exact head?_normalizeEscapes delim_slash.toOutside hpath
      (h.path_slash (by simpa [Parts.normal] using ha))
  · -- two slashes at the beginning would come from two slashes
    obtain ⟨r, hr⟩ := eq_cons_of_normalizeEscapes delim_slash hpath hs
    rw [hr] at hpath
    have hcr : Closed r := ((closed_append_cons_iff delim_slash.toOutside (s := [])).1 hpath).2
    have hs' : Mycelium.normalizeEscapes r = Byte.slash :: s := by
      have := hs
      rw [Parts.normal, hr, normalizeEscapes_cons delim_slash.ne_percent hcr, List.cons.injEq]
        at this
      exact this.2
    obtain ⟨r', rfl⟩ := eq_cons_of_normalizeEscapes delim_slash hcr hs'
    exact h.path_rootless (by simpa [Parts.normal] using ha) r' hr
  · exact noScheme_normalizeEscapes (h.path_noScheme (by simpa [Parts.normal] using ha)) hpath
      (not_pathDelim_of_clean h.path_clean)

/-! ### Normalizing the printed text -/

/-- The text `s` has whole escapes only, and `t` is its normal form. -/
structure Normal (s t : Str) : Prop where
  closed : Closed s
  eq : Mycelium.normalizeEscapes s = t

namespace Normal

variable {s s' t t' : Str}

lemma self (h : Closed s) : Normal s (Mycelium.normalizeEscapes s) := ⟨h, rfl⟩

lemma of_not_mem (h : Byte.percent ∉ s) : Normal s s :=
  ⟨closed_of_not_mem h, normalizeEscapes_of_not_mem h⟩

lemma append (h : Normal s t) (h' : Normal s' t') : Normal (s ++ s') (t ++ t') :=
  ⟨h.closed.append h'.closed, by rw [normalizeEscapes_append h.closed h'.closed, h.eq, h'.eq]⟩

/-- Parts that are printed under a condition. -/
lemma ite {p q : Prop} [Decidable p] [Decidable q] (hpq : p ↔ q) (h : p → Normal s t)
    (h' : ¬ p → Normal s' t') : Normal (if p then s else s') (if q then t else t') := by
  by_cases hp : p
  · rw [if_pos hp, if_pos (hpq.1 hp)]
    exact h hp
  · rw [if_neg hp, if_neg (hpq.not.1 hp)]
    exact h' hp

end Normal

lemma normal_host {h : Str} (hv : validHost h = true) : Normal (h.map toLower) (hostNormal h) :=
  .self (Closed.map_toLower (closed_of_validHost hv))

lemma percent_not_mem_port {a : Authority} (h : a.WF) : Byte.percent ∉ a.port := by
  intro hm
  exact absurd (h.port_digits _ hm) (by decide)

lemma percent_not_mem_scheme {t : Parts} (h : t.WF) : Byte.percent ∉ t.scheme := by
  intro hm
  exact (not_schemeDelim_of_reScheme (h.scheme_ok (List.ne_nil_of_mem hm)).1 _ hm).2 rfl

lemma normal_hostPort {a : Authority} (h : a.WF) : Normal a.lower.hostPort a.normal.hostPort := by
  have hhost := normal_host h.host_valid
  refine .append (.ite Iff.rfl (fun _ => ?_) fun _ => hhost)
    (.ite Iff.rfl (fun _ => ?_) fun _ => ?_)
  · exact (Normal.of_not_mem (s := [Byte.lbracket]) (by decide)).append
      (hhost.append (.of_not_mem (by decide)))
  · exact .of_not_mem List.not_mem_nil
  · refine .of_not_mem fun hm => ?_
    rcases List.mem_cons.1 hm with hm | hm
    · exact absurd hm (by decide)
    · exact percent_not_mem_port h hm

lemma normal_authority {a : Authority} (h : a.WF) : Normal a.lower.print a.normal.print := by
  have huser : Normal a.userinfo a.normal.userinfo := .self (h.userinfo_clean.closed percent_auth)
  have hempty : a.userinfo.isEmpty = true ↔ a.normal.userinfo.isEmpty = true := by
    rw [List.isEmpty_iff, List.isEmpty_iff, Authority.normal,
      normalizeEscapes_eq_nil_iff huser.closed]
  refine .ite ?_ (fun _ => .of_not_mem List.not_mem_nil) fun _ => ?_
  · rw [List.isEmpty_iff, List.isEmpty_iff, Authority.normal, hostNormal_eq_nil_iff h.host_valid,
      Authority.lower, List.map_eq_nil_iff]
  · refine .append (.ite hempty (fun _ => .of_not_mem List.not_mem_nil) fun _ => ?_)
      (normal_hostPort h)
    exact huser.append (.of_not_mem (by decide))

/-- The parts of a URL with its host in lower case. -/
def Parts.lower (t : Parts) : Parts := { t with authority := t.authority.map Authority.lower }

/-- Normalizing the escapes of the printed text is printing the normalized parts. -/
lemma normal_print {t : Parts} (h : t.WF) : Normal t.lower.print t.normal.print := by
  have hscheme := percent_not_mem_scheme h
  refine .append (.append (.append (.append ?_ ?_) ?_) ?_) ?_
  · refine .ite Iff.rfl (fun _ => .of_not_mem List.not_mem_nil) fun _ => .of_not_mem ?_
    simpa [Parts.lower] using ⟨hscheme, by decide⟩
  · cases ha : t.authority with
    | none =>
        simp only [Parts.lower, Parts.normal, ha, Option.map_none]
        exact .of_not_mem List.not_mem_nil
    | some a =>
        simp only [Parts.lower, Parts.normal, ha, Option.map_some]
        exact (Normal.of_not_mem (s := [Byte.slash, Byte.slash]) (by decide)).append
          (normal_authority (h.authority_wf a ha))
  · exact .self (h.path_clean.closed percent_path)
  · exact .self (h.query_clean.closed percent_query)
  · exact .self (h.fragment_clean.closed percent_fragment)

/-! ### Normalization -/

lemma parts_lower {u : Url} (h : Accepted u) :
    u.normalizeScheme.normalizeHost.parts = u.parts.lower := by
  have hscheme : u.scheme.map toLower = u.scheme := by
    by_cases hs : u.scheme = []
    · simp [hs]
    · exact (h.wf.scheme_ok hs).2.1
  cases ha : u.hasAuthority <;>
    simp [parts, Parts.lower, normalizeScheme, normalizeHost, ha, hscheme, Authority.lower]

lemma normalizeEscapes_get {u : Url} (h : Accepted u) :
    Mycelium.normalizeEscapes u.normalizeScheme.normalizeHost.get = u.parts.normal.print := by
  rw [← print_parts, parts_lower h]
  exact (normal_print h.wf).eq

lemma readable_normal_iff {t : Parts} (h : t.WF) : t.normal.Readable ↔ t.Readable := by
  cases ha : t.authority with
  | none => simp [Parts.Readable, Parts.normal, ha]
  | some a =>
      have hhost := hostNormal_eq_nil_iff (h.authority_wf a ha).host_valid
      simp [Parts.Readable, Parts.normal, ha, Authority.normal, hhost]

/-- `normalize` on an accepted URL that can be printed and read. -/
lemma normalize_of_readable {u : Url} (h : Accepted u) (hr : u.parts.Readable) :
    u.normalize = .ok u.parts.normal.toUrl.normalizePath := by
  have hread := Parts.assign_print h.wf.normal ((readable_normal_iff h.wf).2 hr)
  rw [normalize, normalizeEscapes, normalizeEscapes_get h, hread]
  rfl

lemma normalize_of_not_readable {u : Url} (h : Accepted u) (hr : ¬ u.parts.Readable) :
    ∃ e, u.normalize = .error e := by
  have hread := Parts.assign_print_error h.wf.normal ((readable_normal_iff h.wf).not.2 hr)
  rw [normalize, normalizeEscapes, normalizeEscapes_get h, hread]
  exact ⟨_, rfl⟩

lemma normalize_ok_iff_readable {u : Url} (h : Accepted u) :
    (∃ v, u.normalize = .ok v) ↔ u.parts.Readable := by
  constructor
  · rintro ⟨v, hv⟩
    by_contra hr
    obtain ⟨e, he⟩ := normalize_of_not_readable h hr
    rw [he] at hv
    exact absurd hv (by simp)
  · exact fun hr => ⟨_, normalize_of_readable h hr⟩

lemma Accepted.host_valid {u : Url} (h : Accepted u) : validHost u.host = true := by
  cases ha : u.hasAuthority with
  | true => exact (h.wf.authority_wf _ (by rw [parts, ha]; rfl)).host_valid
  | false =>
      rw [(h.blank ha).2.2.2.1]
      rfl

/-- The host of the normal form depends on the host only. -/
lemma host_normalize {u v : Url} (h : Accepted u) (hv : u.normalize = .ok v) :
    v.host = hostNormal u.host := by
  rw [normalize_of_readable h ((normalize_ok_iff_readable h).1 ⟨v, hv⟩), Except.ok.injEq] at hv
  rw [← hv]
  cases ha : u.hasAuthority with
  | true => simp [normalizePath, Parts.toUrl, Parts.normal, parts, ha, Authority.normal]
  | false =>
      rw [(h.blank ha).2.2.2.1]
      simp [normalizePath, Parts.toUrl, Parts.normal, parts, ha]
      rfl

/-- `normalize` on an accepted text succeeds exactly when the text has no scheme, the scheme
`file` or a host.  Otherwise the scheme setter has declared an authority, and the `//` that is
printed for it is not read back. -/
theorem normalize_ok_iff {s : Str} {u : Url} (h : assign s = .ok u) :
    (∃ v, u.normalize = .ok v) ↔
      ((regexMatch s).scheme = none ∨
        (regexMatch s).scheme.map (List.map toLower) = some (lit "file") ∨
        ∃ a ∈ (regexMatch s).authority, ¬ EmptyHost a) := by
  have hacc := accepted_of_assign h
  obtain ⟨hnone, hscheme⟩ := scheme_of_assign h
  have hfile : u.scheme = lit "file" ↔
      (regexMatch s).scheme.map (List.map toLower) = some (lit "file") := by
    rw [hscheme]
    cases hm : (regexMatch s).scheme with
    | none => simp [lit]
    | some x => simp
  have hhost : u.host ≠ [] ↔ ∃ a ∈ (regexMatch s).authority, ¬ EmptyHost a := by
    rw [ne_eq, (authority_of_assign h).2]
    push Not
    rfl
  rw [normalize_ok_iff_readable hacc, readable_parts_iff hacc, hnone, hfile, hhost]

theorem normalize_ok_iff_host :
    (∃ v, normalize { scheme := lit "http", hasAuthority := true, host := lit "A.b"
                      path := Path.assign (lit "/") } = .ok v) ↔
      ((regexMatch (lit "http://A.b/")).scheme = none ∨
        (regexMatch (lit "http://A.b/")).scheme.map (List.map toLower) = some (lit "file") ∨
        ∃ a ∈ (regexMatch (lit "http://A.b/")).authority, ¬ EmptyHost a) :=
  normalize_ok_iff (s := lit "http://A.b/") rfl

/-- `http:foo` is accepted, prints as `http:///foo` and cannot be normalized. -/
theorem not_normalize_rootless :
    ∃ u, assign (lit "http:foo") = .ok u ∧ u.get = lit "http:///foo" ∧
      ¬ ∃ v, u.normalize = .ok v := by
  refine ⟨{ scheme := lit "http", hasAuthority := true, path := Path.assign (lit "/foo") },
    rfl, rfl, ?_⟩
  rintro ⟨v, hv⟩
  have herr : normalize { scheme := lit "http", hasAuthority := true
                          path := Path.assign (lit "/foo") } =
      .error (.runtimeError (lit "normalize_escapes: " ++
        lit "empty authority part, with // is not allowed for schemes other than 'file'")) := rfl
  rw [herr] at hv
  exact absurd hv (by simp)

end Url

end Mycelium
