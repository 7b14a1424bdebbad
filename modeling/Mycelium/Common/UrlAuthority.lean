import Mycelium.Common.UrlMerge

/-!
# Reading an authority

`assign` on `http://authority/`, for an authority put together from a userinfo, a host and a port
that the setters accept.  A host that is accepted is stored as it is given: an escape that the
setter had to add would stand for a character that is not safe, and no valid host has one.  So the
components are read back, but for the port of an IP literal, because the code does not look behind
the closing bracket.
-/

namespace Mycelium

open Lib

namespace Url

/-! ### Hosts that the setter accepts -/

/-- A host in brackets is an IPv6 address, and one without brackets a registered name or an IPv4
address, after its safe escapes are decoded. -/
def HostForm (literal : Bool) (h : Str) : Prop :=
  match literal with
  | true => reIpv6.Matches (unescapeSafe h)
  | false => h = [] ∨ reHost.Matches (unescapeSafe h) ∨ reIpv4.Matches (unescapeSafe h)

/-- Nothing is escaped in a host that is valid after escaping. -/
lemma clean_of_validHost_escape {h : Str} (hv : validHost (escape h urlCharAuth) = true) :
    Clean urlCharAuth h := by
  intro c hc
  by_contra htest
  rw [Bool.not_eq_false] at htest
  have hmem : Tok.esc (digitToXnum (c >>> 4)) (digitToXnum (c &&& 0xf)) ∈
      tokens (escape h urlCharAuth) := by
    rw [tokens_escape percent_auth]
    exact List.mem_map.2 ⟨_, hc, by simp [Tok.escape, htest]⟩
  rcases tokens_of_validHost hv _ hmem with ⟨d, hd, -⟩ | ⟨a, b, hab, -, -, hsafe⟩
  · exact absurd hd (by simp)
  · obtain ⟨rfl, rfl⟩ := Tok.esc.inj hab
    rw [x2digitsToNum_digits] at hsafe
    have hflags := urlCharFlags_eq_zero c (Or.inr hsafe)
    simp [urlCharTest, hflags] at htest

lemma colon_not_mem_of_hostForm {h : Str} (hf : HostForm false h) : Byte.colon ∉ h := by
  intro hmem
  rw [← raw_mem_tokens delim_colon.toOutside] at hmem
  have hdec : Byte.colon ∈ unescapeSafe h := by
    rw [unescapeSafe, unescapeIf_eq_flatMap]
    exact List.mem_flatMap.2 ⟨_, hmem, by simp [Tok.unescaped]⟩
  rcases hf with rfl | hf | hf
  · exact absurd hmem (by simp)
  · exact hf.notMem (by decide) hdec
  · exact hf.notMem (by decide) hdec

lemma ne_nil_of_hostForm {h : Str} (hf : HostForm true h) : h ≠ [] := by
  rintro rfl
  exact absurd hf (by rw [HostForm, ← Regex.accepts_iff]; decide)

/-! ### Authorities that are put together -/

namespace Authority

/-- The components are accepted by the setters, and the userinfo has no delimiter. -/
structure Given (a : Authority) : Prop where
  userinfo_delim : ∀ c ∈ a.userinfo, isAuthorityDelim c = false ∧ c ≠ Byte.atSign
  host_form : HostForm a.literal a.host
  host_set : ∃ v, setHost {} a.host = .ok v
  port_set : ∃ v, setPort {} a.port = .ok v

namespace Given

variable {a : Authority} (h : a.Given)

include h

lemma host_clean : Clean urlCharAuth a.host := by
  obtain ⟨v, hv⟩ := h.host_set
  exact clean_of_validHost_escape (setHost_ok hv).1

lemma host_valid : validHost a.host = true := by
  obtain ⟨v, hv⟩ := h.host_set
  have hval := (setHost_ok hv).1
  rwa [escape_of_clean h.host_clean] at hval

/-- The authority is one that the setters build, unless its port is lost. -/
lemma wf_escaped (hne : a.host ≠ []) (hp : a.literal = true → a.port = []) : a.escaped.WF where
  userinfo_clean := clean_escape percent_auth _
  userinfo_at hat := (h.userinfo_delim _
    ((mem_escape_iff percent_auth delim_atSign.toOutside (by decide)).1 hat)).2 rfl
  host_clean := h.host_clean
  host_valid := h.host_valid
  host_colon hl := colon_not_mem_of_hostForm (show HostForm false a.host from hl ▸ h.host_form)
  port_ok hport := by
    obtain ⟨v, hv⟩ := h.port_set
    obtain ⟨hre, hlt, hpos, -⟩ := setPort_ok hport hv
    refine ⟨?_, hne, hre, hlt, hpos⟩
    by_contra hl
    exact hport (hp (by simpa [escaped] using hl))

lemma port_digits : ∀ c ∈ a.port, isDigit c = true := by
  intro c hc
  obtain ⟨v, hv⟩ := h.port_set
  exact isDigit_of_rePort (setPort_ok (List.ne_nil_of_mem hc) hv).1 c hc

lemma hostPort_not_delim : ∀ c ∈ a.hostPort, isAuthorityDelim c = false ∧ c ≠ Byte.atSign :=
  Authority.hostPort_not_delim h.host_clean h.host_valid h.port_digits

lemma not_delim : ∀ c ∈ a.text, isAuthorityDelim c = false :=
  text_not_delim (fun c hc => (h.userinfo_delim c hc).1) fun c hc => (h.hostPort_not_delim c hc).1

end Given

end Authority

/-! ### The URL around the authority -/

/-- `"http://" + s + "/"`. -/
def httpText (s : Str) : Str := lit "http://" ++ s ++ lit "/"

/-- The URL when the authority is set. -/
def httpBase : Url := { scheme := lit "http", hasAuthority := true }

lemma reScheme_http : reScheme.accepts (lit "http") = true := by decide

lemma regexMatch_httpText {s : Str} (hs : ∀ c ∈ s, isAuthorityDelim c = false) :
    regexMatch (httpText s) =
      { scheme := some (lit "http"), authority := some s, path := lit "/", query := none
        fragment := none } := by
  have htext : httpText s
      = lit "http" ++ Byte.colon :: Byte.slash :: Byte.slash :: (s ++ lit "/") := rfl
  have hx : ∀ c ∈ s, (!isAuthorityDelim c) = true := fun c hc => by simp [hs c hc]
  have hy : ∀ c ∈ (lit "/").head?, (!isAuthorityDelim c) = false := by
    rintro c ⟨⟩
    rfl
  have hscheme : ∀ c ∈ lit "http", isSchemeDelim c = false := fun c hc =>
    (not_schemeDelim_of_reScheme reScheme_http c hc).1
  rw [htext, regexMatch_scheme hscheme (by decide)]
  simp only [matchHier, beq_self_eq_true, Bool.and_self, if_true, takeWhile_append_of_stop hx hy,
    dropWhile_append_of_stop hx hy]
  rfl

/-- An authority that is not empty is set, and the URL is checked with the path `/`. -/
lemma assign_httpText {s : Str} (hs : ∀ c ∈ s, isAuthorityDelim c = false) (hne : s ≠ []) :
    assign (httpText s) = (do
      let u ← setAuthority httpBase s
      assignCheck (u.setPath (lit "/"))) := by
  have hset : assignScheme (some (lit "http")) = .ok httpBase := rfl
  rw [assign, regexMatch_httpText hs, assignMatch, hset, ok_bind, if_neg (by simp [hne])]
  rfl

/-- What an accepted text says of its authority. -/
lemma setAuthority_of_assign {s : Str} {v : Url} (hs : ∀ c ∈ s, isAuthorityDelim c = false)
    (hv : assign (httpText s) = .ok v) :
    s ≠ [] ∧ ∃ u, setAuthority httpBase s = .ok u ∧ v = u.setPath (lit "/") := by
  have hne : s ≠ [] := by
    rintro rfl
    rw [assign, regexMatch_httpText hs] at hv
    cases hv
  rw [assign_httpText hs hne] at hv
  obtain ⟨u, hu, hcheck⟩ := bind_eq_ok.1 hv
  exact ⟨hne, u, hu, (assignCheck_ok hcheck).1⟩

/-- The parts of the URL. -/
def httpParts (a : Authority) : Parts :=
  { scheme := lit "http", authority := some a, path := lit "/", query := [], fragment := [] }

lemma clean_slash : Clean urlCharPath (lit "/") := by
  intro c hc
  have htok : tokens (lit "/") = [.raw Byte.slash] := rfl
  rw [htok, List.mem_singleton, Tok.raw.injEq] at hc
  rw [hc]
  decide

lemma wf_httpParts {a : Authority} (h : a.WF) : (httpParts a).WF where
  scheme_ok _ := ⟨reScheme_http, rfl, by simp [httpParts]⟩
  authority_wf b hb := Option.some.inj hb ▸ h
  path_clean := clean_slash
  path_slash _ c hc := (Option.some.inj hc).symm
  path_rootless hnone := absurd hnone (by simp [httpParts])
  path_noScheme hnone := absurd hnone (by simp [httpParts])
  query_clean := clean_nil
  query_head := by simp [httpParts]
  fragment_clean := clean_nil
  fragment_head := by simp [httpParts]

lemma assign_text {a : Authority} (h : a.Given) (hne : a.host ≠ [])
    (hp : a.literal = true → a.port = []) :
    assign (httpText a.text) = .ok (httpParts a.escaped).toUrl := by
  have hwf := h.wf_escaped hne hp
  have hparts := wf_httpParts hwf
  have htext : a.text ≠ [] := by
    cases hl : a.literal <;> simp [Authority.text, Authority.hostPort, hl, hne]
  -- the text with the userinfo as it is given sets what the printed text sets
  have hset : setAuthority httpBase a.text = .ok (httpParts a.escaped).toUrlFront := by
    rw [setAuthority_text httpBase hwf hne, ← setAuthority_print httpBase hwf hne]
    exact Parts.assignAuthority_map hparts
  rw [assign_httpText h.not_delim htext, hset, ok_bind]
  exact (congrArg assignCheck (Parts.setPath_toUrlFront hparts)).trans
    (Parts.assignCheck_toUrl hparts)

/-! ### The round trip of an authority -/

/-- The components are read back, and the authority is printed with its userinfo escaped. -/
def ReadBack (a : Authority) : Prop :=
  ∃ v, assign (httpText a.text) = .ok v ∧ v.userinfo = escape a.userinfo urlCharAuth ∧
    v.host = a.host ∧ v.port = a.port ∧ v.authority = a.escaped.text

lemma readBack_of_port {a : Authority} (h : a.Given) (hne : a.host ≠ [])
    (hp : a.literal = true → a.port = []) : ReadBack a := by
  have hempty : a.host.isEmpty = false := by simpa using hne
  refine ⟨_, assign_text h hne hp, ?_, rfl, rfl, ?_⟩
  · simp [Parts.toUrl, httpParts, Authority.escaped, hempty]
  · rw [authority_eq_print, ← Authority.print_eq_text (a := a.escaped) hne]
    simp [authorityParts, Parts.toUrl, httpParts, Authority.escaped, hempty]

/-- Behind the userinfo, the setter reads the host and the port. -/
lemma Authority.Given.setAuthority_eq {a : Authority} (h : a.Given) (hne : a.hostPort ≠ []) :
    ∃ base s, base.port = [] ∧ setAuthority httpBase a.text = setHostPort base s a.hostPort := by
  by_cases hui : a.userinfo = []
  · have htext : a.text = a.hostPort := by simp [Authority.text, hui]
    refine ⟨httpBase, a.hostPort, rfl, ?_⟩
    rw [htext, setAuthority_host httpBase fun hat => (h.hostPort_not_delim _ hat).2 rfl]
  · have htext : a.text = a.userinfo ++ Byte.atSign :: a.hostPort := by
      simp [Authority.text, hui]
    refine ⟨httpBase.setUserinfo a.userinfo, a.text, rfl, ?_⟩
    rw [htext, setAuthority_userinfo httpBase (fun hat => (h.userinfo_delim _ hat).2 rfl) hne]

/-- No port is set behind a literal. -/
lemma port_eq_nil_of_literal {a : Authority} (h : a.Given) (hl : a.literal = true) {u : Url}
    (hu : setAuthority httpBase a.text = .ok u) : u.port = [] := by
  have htext : a.hostPort = Byte.lbracket :: (a.host ++ Byte.rbracket ::
      (if a.port.isEmpty then [] else Byte.colon :: a.port)) := by
    simp [Authority.hostPort, hl]
  obtain ⟨base, s, hport, heq⟩ := h.setAuthority_eq (by simp [htext])
  have hbr : Byte.rbracket ∉ a.host := not_mem_of_validHost h.host_valid (by decide) (by decide)
  rw [heq, htext, setHostPort_literal base s hbr] at hu
  obtain ⟨-, rfl⟩ := setHost_ok hu
  exact hport

/-- A port without a host is refused. -/
lemma setHostPort_colon (base : Url) (s port : Str) (v : Url) :
    setHostPort base s (Byte.colon :: port) ≠ .ok v := by
  intro hv
  rcases setHostPort_cases hv with ⟨x, z, heq, -⟩ | ⟨-, hcolon, -⟩ |
    ⟨x, q, w, heq, hx, -, hcolon, -⟩
  · exact absurd (List.cons.inj heq).1 (by decide)
  · exact hcolon List.mem_cons_self
  · obtain ⟨c, x, rfl⟩ := List.exists_cons_of_ne_nil hx
    rw [List.cons_append, List.cons.injEq] at heq
    exact hcolon (heq.1 ▸ List.mem_cons_self)

/-- An authority without a host is refused. -/
lemma host_ne_nil_of_assign {a : Authority} (h : a.Given) {v : Url}
    (hv : assign (httpText a.text) = .ok v) : a.host ≠ [] := by
  intro hhost
  obtain ⟨hne, u, hu, -⟩ := setAuthority_of_assign h.not_delim hv
  have hl : a.literal = false := by
    by_contra hl
    rw [Bool.not_eq_false] at hl
    exact ne_nil_of_hostForm (show HostForm true a.host from hl ▸ h.host_form) hhost
  by_cases hport : a.port = []
  · have hhp : a.hostPort = [] := by simp [Authority.hostPort, hl, hhost, hport]
    have hui : a.userinfo ≠ [] := by
      intro hui
      exact hne (by simp [Authority.text, hui, hhp])
    have htext : a.text = a.userinfo ++ Byte.atSign :: [] := by simp [Authority.text, hui, hhp]
    rw [htext, setAuthority, dropWhile_bne_append fun hat => (h.userinfo_delim _ hat).2 rfl] at hu
    exact absurd hu (by simp)
  · have hhp : a.hostPort = Byte.colon :: a.port := by
      simp [Authority.hostPort, hl, hhost, hport]
    obtain ⟨base, s, -, heq⟩ := h.setAuthority_eq (by simp [hhp])
    rw [heq, hhp] at hu
    exact setHostPort_colon base s a.port u hu

/-- The components of an authority are read back exactly when there is a host, and no port behind
an IPv6 address. -/
theorem readBack_iff {a : Authority} (h : a.Given) :
    ReadBack a ↔ a.host ≠ [] ∧ (a.literal = true → a.port = []) := by
  constructor
  · rintro ⟨v, hv, -, -, hport, -⟩
    refine ⟨host_ne_nil_of_assign h hv, fun hl => ?_⟩
    obtain ⟨-, u, hu, rfl⟩ := setAuthority_of_assign h.not_delim hv
    have hnil : u.port = [] := port_eq_nil_of_literal h hl hu
    exact hport.symm.trans hnil
  · rintro ⟨hne, hp⟩
    exact readBack_of_port h hne hp

/-- An authority with all components; the blank of its userinfo is escaped. -/
def sampleAuthority : Authority :=
  { userinfo := lit "a b:c", literal := false, host := lit "f%33oo.com", port := lit "69" }

theorem readBack_iff_sample : sampleAuthority.Given ∧ ReadBack sampleAuthority := by
  have hui : sampleAuthority.userinfo.all
      (fun c => !isAuthorityDelim c && c != Byte.atSign) = true := by decide
  have hgiven : sampleAuthority.Given :=
    { userinfo_delim := fun c hc => by simpa using List.all_eq_true.1 hui c hc
      host_form := Or.inr (Or.inl ((Regex.accepts_iff _ _).1 (by decide)))
      host_set := ⟨_, rfl⟩
      port_set := ⟨_, rfl⟩ }
  exact ⟨hgiven, (readBack_iff hgiven).2 ⟨by decide, by decide⟩⟩

/-- The port of `http://[::1]:80/` is lost. -/
theorem not_readBack_literal :
    ∃ a : Authority, a.Given ∧ httpText a.text = lit "http://[::1]:80/" ∧ a.port = lit "80" ∧
      ∃ v, assign (lit "http://[::1]:80/") = .ok v ∧ v.host = lit "::1" ∧ v.port = [] ∧
        v.authority = lit "[::1]" := by
  have hgiven : Authority.Given
      { userinfo := [], literal := true, host := lit "::1", port := lit "80" } :=
    { userinfo_delim := by simp
      host_form := (Regex.accepts_iff reIpv6 _).1 (by decide)
      host_set := ⟨_, rfl⟩
      port_set := ⟨_, rfl⟩ }
  exact ⟨_, hgiven, rfl, rfl, _, rfl, rfl, rfl, rfl⟩

end Url

end Mycelium
