import Mycelium.Common.Host

/-!
# URLs as texts of components

The printer `get` concatenates the texts of the components, and the parser `assign` cuts a string
at the delimiters and hands the pieces to the setters.  `Parts` is a URL as the texts of its
components, `Parts.print` the printed string and `Parts.WF` the conditions under which the cut
is at the seams.  The main result of the file is that `assign` reads back what is printed from
well-formed parts, except when it finds an empty authority under a scheme other than `file`.
-/

namespace Mycelium

open Lib

namespace Url

/-! ### Parts -/

/-- The components of an authority. -/
structure Authority where
  userinfo : Str
  literal : Bool
  host : Str
  port : Str
deriving DecidableEq, Repr

namespace Authority

/-- The host with its brackets, and the port. -/
def hostPort (a : Authority) : Str :=
  (if a.literal then Byte.lbracket :: a.host ++ [Byte.rbracket] else a.host)
    ++ (if a.port.isEmpty then [] else Byte.colon :: a.port)

/-- The printed authority; nothing is printed for an empty host. -/
def print (a : Authority) : Str :=
  if a.host.isEmpty then []
  else (if a.userinfo.isEmpty then [] else a.userinfo ++ [Byte.atSign]) ++ a.hostPort

/-- The authorities that the setters build. -/
structure WF (a : Authority) : Prop where
  userinfo_clean : Clean urlCharAuth a.userinfo
  userinfo_at : Byte.atSign ∉ a.userinfo
  host_clean : Clean urlCharAuth a.host
  host_valid : validHost a.host = true
  host_colon : a.literal = false → Byte.colon ∉ a.host
  port_ok : a.port ≠ [] → a.literal = false ∧ a.host ≠ [] ∧
    rePort.accepts a.port = true ∧ portNum a.port < 65536 ∧ 0 < portNum a.port

/-- The text of an authority in a URL. -/
def text (a : Authority) : Str :=
  (if a.userinfo.isEmpty then [] else a.userinfo ++ [Byte.atSign]) ++ a.hostPort

/-- The authority that the setters store: the userinfo is escaped. -/
def escaped (a : Authority) : Authority := { a with userinfo := escape a.userinfo urlCharAuth }

lemma print_eq_text {a : Authority} (h : a.host ≠ []) : a.print = a.text := by
  rw [print, if_neg (by simpa using h), text]

lemma print_eq_nil_iff {a : Authority} : a.print = [] ↔ a.host = [] := by
  by_cases h : a.host = []
  · simp [print, h]
  · cases hl : a.literal <;> simp [print, hostPort, h, hl]

end Authority

/-- The components of a URL as texts. -/
structure Parts where
  scheme : Str
  authority : Option Authority
  path : Str
  query : Str
  fragment : Str
deriving DecidableEq, Repr

/-- The components of a URL. -/
def parts (u : Url) : Parts where
  scheme := u.scheme
  authority := if u.hasAuthority then
    some { userinfo := u.userinfo, literal := u.hostIpLiteral, host := u.host, port := u.port }
    else none
  path := u.path.get
  query := u.query
  fragment := u.fragment

namespace Parts

/-- The printed URL. -/
def print (t : Parts) : Str :=
  (if t.scheme.isEmpty then [] else t.scheme ++ [Byte.colon])
    ++ (match t.authority with
      | some a => Byte.slash :: Byte.slash :: a.print
      | none => [])
    ++ t.path ++ t.query ++ t.fragment

/-- The text does not start like a scheme. -/
def NoScheme (s : Str) : Prop :=
  ∀ x y, s = x ++ Byte.colon :: y → x ≠ [] → ∃ c ∈ x, isSchemeDelim c = true

/-- The parts whose printed text is cut at the seams. -/
structure WF (t : Parts) : Prop where
  scheme_ok : t.scheme ≠ [] →
    reScheme.accepts t.scheme = true ∧ t.scheme.map toLower = t.scheme ∧ t.authority ≠ none
  authority_wf : ∀ a ∈ t.authority, a.WF
  path_clean : Clean urlCharPath t.path
  path_slash : t.authority ≠ none → ∀ c ∈ t.path.head?, c = Byte.slash
  path_rootless : t.authority = none → ∀ s, t.path ≠ Byte.slash :: Byte.slash :: s
  path_noScheme : t.authority = none → NoScheme t.path
  query_clean : Clean urlCharQuery t.query
  query_head : ∀ c ∈ t.query.head?, c = Byte.question
  fragment_clean : Clean urlCharFragment t.fragment
  fragment_head : ∀ c ∈ t.fragment.head?, c = Byte.hash

/-- The URL that `assign` builds from parts: an authority with an empty host is printed without
its userinfo and brackets. -/
def toUrl (t : Parts) : Url :=
  let p := Path.assign t.path
  match t.authority with
  | none => { scheme := t.scheme, path := p, query := t.query, fragment := t.fragment }
  | some a =>
      { scheme := t.scheme
        hasAuthority := true
        userinfo := if a.host.isEmpty then [] else a.userinfo
        hostIpLiteral := !a.host.isEmpty && a.literal
        host := a.host
        port := a.port
        path := p.setAbsolute true
        query := t.query
        fragment := t.fragment }

end Parts

/-- What the authority setter does to a URL: it overwrites the components that are there. -/
def overwrite (base : Url) (a : Authority) : Url :=
  { base with
    userinfo := if a.userinfo.isEmpty then base.userinfo else a.userinfo
    hostIpLiteral := base.hostIpLiteral || a.literal
    host := a.host
    hasAuthority := true
    port := if a.port.isEmpty then base.port else a.port }

lemma print_parts (u : Url) : u.parts.print = u.get := by
  cases h : u.hasAuthority <;>
    simp [parts, Parts.print, get, h, Authority.print, Authority.hostPort, authority]

/-! ### Characters of the components -/

lemma percent_auth : urlCharTest Byte.percent urlCharAuth = true := by decide
lemma percent_path : urlCharTest Byte.percent urlCharPath = true := by decide
lemma percent_query : urlCharTest Byte.percent urlCharQuery = true := by decide
lemma percent_fragment : urlCharTest Byte.percent urlCharFragment = true := by decide

lemma not_authorityDelim_of_clean {s : Str} (h : Clean urlCharAuth s) :
    ∀ c ∈ s, isAuthorityDelim c = false := by
  intro c hc
  by_contra hd
  have hflag : urlCharTest c urlCharAuth = true ∧ c ≠ Byte.percent := by
    simp only [isAuthorityDelim, Bool.not_eq_false, Bool.or_eq_true, beq_iff_eq] at hd
    rcases hd with (rfl | rfl) | rfl <;> decide
  exact h.not_mem hflag.1 hflag.2 hc

lemma not_pathDelim_of_clean {s : Str} (h : Clean urlCharPath s) :
    ∀ c ∈ s, isPathDelim c = false := by
  intro c hc
  by_contra hd
  have hflag : urlCharTest c urlCharPath = true ∧ c ≠ Byte.percent := by
    simp only [isPathDelim, Bool.not_eq_false, Bool.or_eq_true, beq_iff_eq] at hd
    rcases hd with rfl | rfl <;> decide
  exact h.not_mem hflag.1 hflag.2 hc

lemma ne_hash_of_clean {s : Str} (h : Clean urlCharQuery s) : ∀ c ∈ s, c ≠ Byte.hash := by
  rintro c hc rfl
  exact h.not_mem (by decide) (by decide) hc

lemma isDigit_of_rePort {s : Str} (h : rePort.accepts s = true) : ∀ c ∈ s, isDigit c = true := by
  rw [Regex.accepts_iff] at h
  have hd : digit.AllCls (fun p => ∀ c, p c = true → isDigit c = true) := fun c hc => hc
  exact h.forall_mem ⟨hd, Regex.allCls_upTo hd 4⟩

lemma not_schemeDelim_of_reScheme {s : Str} (h : reScheme.accepts s = true) :
    ∀ c ∈ s, isSchemeDelim c = false ∧ c ≠ Byte.percent := by
  rw [Regex.accepts_iff] at h
  have hextra : lit "+.-" = [0x2B, 0x2E, 0x2D] := rfl
  refine h.forall_mem ⟨fun c hc => ?_, fun c hc => ?_⟩
  · simp only [isAlpha, isSchemeDelim, Byte.colon, Byte.slash, Byte.question, Byte.hash,
      Byte.percent, Bool.or_eq_true, Bool.and_eq_true, decide_eq_true_eq] at hc ⊢
    grind
  · simp only [hextra, isAlnum, isAlpha, isDigit, isSchemeDelim, Byte.colon, Byte.slash,
      Byte.question, Byte.hash, Byte.percent, Bool.or_eq_true, Bool.and_eq_true,
      decide_eq_true_eq, List.contains_iff_mem] at hc ⊢
    grind

lemma isAuthorityDelim_of_isDigit {c : UInt8} (h : isDigit c = true) :
    isAuthorityDelim c = false ∧ c ≠ Byte.atSign := by
  simp only [isDigit, isAuthorityDelim, Byte.slash, Byte.question, Byte.hash, Byte.atSign,
    Bool.and_eq_true, decide_eq_true_eq] at h ⊢
  grind

namespace Authority

variable {a : Authority}

lemma hostPort_not_delim (hc : Clean urlCharAuth a.host) (hv : validHost a.host = true)
    (hp : ∀ c ∈ a.port, isDigit c = true) :
    ∀ c ∈ a.hostPort, isAuthorityDelim c = false ∧ c ≠ Byte.atSign := by
  have hhost : ∀ c ∈ a.host, isAuthorityDelim c = false ∧ c ≠ Byte.atSign := by
    intro c hmem
    refine ⟨not_authorityDelim_of_clean hc c hmem, ?_⟩
    rintro rfl
    exact not_mem_of_validHost hv (by decide) (by decide) hmem
  intro c hmem
  rw [hostPort, List.mem_append] at hmem
  rcases hmem with hmem | hmem
  · split at hmem
    · simp only [List.mem_append, List.mem_cons, List.not_mem_nil, or_false] at hmem
      rcases hmem with (rfl | hmem) | rfl
      · decide
      · exact hhost c hmem
      · decide
    · exact hhost c hmem
  · split at hmem
    · exact absurd hmem List.not_mem_nil
    · rcases List.mem_cons.1 hmem with rfl | hmem
      · decide
      · exact isAuthorityDelim_of_isDigit (hp c hmem)

lemma text_not_delim (hui : ∀ c ∈ a.userinfo, isAuthorityDelim c = false)
    (hhp : ∀ c ∈ a.hostPort, isAuthorityDelim c = false) :
    ∀ c ∈ a.text, isAuthorityDelim c = false := by
  intro c hc
  rcases List.mem_append.1 hc with hc | hc
  · split at hc
    · exact absurd hc List.not_mem_nil
    · rcases List.mem_append.1 hc with hc | hc
      · exact hui c hc
      · rw [List.mem_singleton.1 hc]
        decide
  · exact hhp c hc

namespace WF

lemma port_digits (h : a.WF) : ∀ c ∈ a.port, isDigit c = true := by
  intro c hc
  exact isDigit_of_rePort (h.port_ok (List.ne_nil_of_mem hc)).2.2.1 c hc

lemma hostPort_not_delim (h : a.WF) :
    ∀ c ∈ a.hostPort, isAuthorityDelim c = false ∧ c ≠ Byte.atSign :=
  Authority.hostPort_not_delim h.host_clean h.host_valid h.port_digits

lemma print_not_delim (h : a.WF) : ∀ c ∈ a.print, isAuthorityDelim c = false := by
  by_cases hne : a.host = []
  · simp [print, hne]
  · rw [print_eq_text hne]
    exact text_not_delim (not_authorityDelim_of_clean h.userinfo_clean)
      fun c hc => (h.hostPort_not_delim c hc).1

end WF

end Authority

/-! ### The setters on printed components -/

lemma setHost_of_wf (base : Url) {h : Str} (hc : Clean urlCharAuth h) (hv : validHost h = true) :
    setHost base h = .ok { base with host := h, hasAuthority := true } := by
  simp [setHost, escape_of_clean hc, hv]

section HostPort

variable (base : Url) (s : Str) {x z port : Str}

/-! The three texts that `setHostPort` tells apart. -/

lemma setHostPort_literal (hx : Byte.rbracket ∉ x) :
    setHostPort base s (Byte.lbracket :: (x ++ Byte.rbracket :: z))
      = setHost { base with hostIpLiteral := true } x := by
  rw [setHostPort, if_pos rfl, if_neg (by simp), if_pos (by simp), takeWhile_bne_append hx]

lemma setHostPort_host (hb : x.head? ≠ some Byte.lbracket) (hx : Byte.colon ∉ x) :
    setHostPort base s x = setHost base x := by
  cases x with
  | nil => rfl
  | cons c x =>
      rw [setHostPort, if_neg (by simpa using hb), dropWhile_bne_eq_nil_iff.2 hx]

lemma setHostPort_port (hne : x ≠ []) (hb : x.head? ≠ some Byte.lbracket) (hx : Byte.colon ∉ x)
    (hport : port ≠ []) :
    setHostPort base s (x ++ Byte.colon :: port)
      = (do let u ← setHost base x; setPort u port) := by
  have hdrop := dropWhile_bne_append (z := port) hx
  have htake := takeWhile_bne_append (z := port) hx
  obtain ⟨c, x, rfl⟩ := List.exists_cons_of_ne_nil hne
  have hc : c ≠ Byte.colon := by
    rintro rfl
    exact hx (by simp)
  rw [List.cons_append] at hdrop htake ⊢
  rw [setHostPort, if_neg (by simpa using hb), hdrop, htake]
  simp [hc, hport]

end HostPort

lemma setPort_of_wf (base : Url) {a : Authority} (h : a.WF) (hport : a.port ≠ []) :
    setPort base a.port = .ok { base with port := a.port } := by
  obtain ⟨-, -, hre, hlt, hpos⟩ := h.port_ok hport
  rw [setPort, if_neg (by simpa using hport), if_neg (by simp [hre]),
    if_neg (by simp [hlt, hpos])]

lemma setHostPort_print (base : Url) (s : Str) {a : Authority} (h : a.WF) (hne : a.host ≠ []) :
    setHostPort base s a.hostPort = .ok { base with
      hostIpLiteral := base.hostIpLiteral || a.literal
      host := a.host
      hasAuthority := true
      port := if a.port.isEmpty then base.port else a.port } := by
  have hset := fun base => setHost_of_wf base h.host_clean h.host_valid
  cases hl : a.literal with
  | true =>
      -- a literal has no port: the code does not look behind the bracket
      have hport : a.port = [] := by
        by_contra hp
        exact absurd (h.port_ok hp).1 (by simp [hl])
      have hbr : Byte.rbracket ∉ a.host :=
        not_mem_of_validHost h.host_valid (by decide) (by decide)
      have htext : a.hostPort = Byte.lbracket :: (a.host ++ [Byte.rbracket]) := by
        simp [Authority.hostPort, hl, hport]
      rw [htext, setHostPort_literal base s hbr, hset]
      simp [hport]
  | false =>
      have hcolon : Byte.colon ∉ a.host := h.host_colon hl
      have hb : a.host.head? ≠ some Byte.lbracket := fun hb =>
        not_mem_of_validHost h.host_valid (by decide) (by decide) (List.mem_of_head? hb)
      by_cases hport : a.port = []
      · have htext : a.hostPort = a.host := by simp [Authority.hostPort, hl, hport]
        rw [htext, setHostPort_host base s hb hcolon, hset]
        simp [hport]
      · have htext : a.hostPort = a.host ++ Byte.colon :: a.port := by
          simp [Authority.hostPort, hl, hport]
        rw [htext, setHostPort_port base s hne hb hcolon hport, hset]
        simp only [bind, Except.bind, setPort_of_wf _ h hport]
        simp [hport]

/-! The two texts that `setAuthority` tells apart. -/

lemma setAuthority_host (base : Url) {h : Str} (hh : Byte.atSign ∉ h) :
    setAuthority base h = setHostPort base h h := by
  rw [setAuthority, dropWhile_bne_eq_nil_iff.2 hh]

lemma setAuthority_userinfo (base : Url) {x h : Str} (hx : Byte.atSign ∉ x) (hne : h ≠ []) :
    setAuthority base (x ++ Byte.atSign :: h)
      = setHostPort (base.setUserinfo x) (x ++ Byte.atSign :: h) h := by
  rw [setAuthority, dropWhile_bne_append hx, takeWhile_bne_append hx]
  exact if_neg (by simpa using hne)

/-- The authority setter on the text of an authority overwrites what the text mentions: the host
always, the userinfo, the brackets and the port when they are there. -/
lemma setAuthority_text (base : Url) {a : Authority} (h : a.escaped.WF) (hne : a.host ≠ []) :
    setAuthority base a.text = .ok (base.overwrite a.escaped) := by
  have hhp : Byte.atSign ∉ a.hostPort := fun hat => (h.hostPort_not_delim _ hat).2 rfl
  have hset := fun base s => setHostPort_print base s h hne
  by_cases hui : a.userinfo = []
  · have htext : a.text = a.hostPort := by simp [Authority.text, hui]
    rw [htext, setAuthority_host base hhp]
    exact (hset base _).trans (by simp [overwrite, Authority.escaped, hui, escape])
  · have htext : a.text = a.userinfo ++ Byte.atSign :: a.hostPort := by
      simp [Authority.text, hui]
    have hhpne : a.hostPort ≠ [] := by
      cases hl : a.literal <;> simp [Authority.hostPort, hl, hne]
    have hat : Byte.atSign ∉ a.userinfo := fun hat =>
      h.userinfo_at ((mem_escape_iff percent_auth delim_atSign.toOutside (by decide)).2 hat)
    rw [htext, setAuthority_userinfo base hat hhpne]
    refine (hset _ _).trans ?_
    simp [overwrite, Authority.escaped, setUserinfo, escape_eq_nil_iff, hui]

lemma Authority.escaped_of_wf {a : Authority} (h : a.WF) : a.escaped = a := by
  rw [Authority.escaped, escape_of_clean h.userinfo_clean]

lemma setAuthority_print (base : Url) {a : Authority} (h : a.WF) (hne : a.host ≠ []) :
    setAuthority base a.print = .ok (base.overwrite a) := by
  have hesc := Authority.escaped_of_wf h
  rw [Authority.print_eq_text hne, setAuthority_text base (hesc.symm ▸ h) hne, hesc]

lemma setAuthority_nil (base : Url) :
    setAuthority base [] = .ok { base with host := [], hasAuthority := true } := rfl

/-! ### The cut of a printed URL -/

/-- A group of the match that takes part in it only when it is not empty. -/
def group (s : Str) : Option Str := if s.isEmpty then none else some s

lemma matchTail_append {q f : Str} (hq : Clean urlCharQuery q)
    (hf : ∀ c ∈ f.head?, c = Byte.hash) : matchTail (q ++ f) = (group q, group f) := by
  have hx : ∀ c ∈ q, (c != Byte.hash) = true := fun c hc => by
    simpa using ne_hash_of_clean hq c hc
  have hy : ∀ c ∈ f.head?, (c != Byte.hash) = false := fun c hc => by simp [hf c hc]
  simp only [matchTail, takeWhile_append_of_stop hx hy, dropWhile_append_of_stop hx hy, group]

section Tail

variable {p q f : Str}

lemma head?_tail (hq : ∀ c ∈ q.head?, c = Byte.question) (hf : ∀ c ∈ f.head?, c = Byte.hash) :
    ∀ c ∈ (q ++ f).head?, c = Byte.question ∨ c = Byte.hash := by
  intro c hc
  cases q with
  | nil => exact Or.inr (hf c hc)
  | cons d q => exact Or.inl (hq c hc)

/-- The path and what follows it are cut at the first `?` or `#`. -/
lemma cut_path (hp : Clean urlCharPath p) (hq : ∀ c ∈ q.head?, c = Byte.question)
    (hf : ∀ c ∈ f.head?, c = Byte.hash) :
    (p ++ (q ++ f)).takeWhile (!isPathDelim ·) = p ∧
      (p ++ (q ++ f)).dropWhile (!isPathDelim ·) = q ++ f := by
  have hx : ∀ c ∈ p, (!isPathDelim c) = true := fun c hc => by
    simp [not_pathDelim_of_clean hp c hc]
  have hy : ∀ c ∈ (q ++ f).head?, (!isPathDelim c) = false := by
    intro c hc
    rcases head?_tail hq hf c hc with rfl | rfl <;> decide
  exact ⟨takeWhile_append_of_stop hx hy, dropWhile_append_of_stop hx hy⟩

end Tail

namespace Parts

lemma NoScheme.append {x y : Str} (hx : NoScheme x)
    (hy : ∀ c ∈ y.head?, isSchemeDelim c = true ∧ c ≠ Byte.colon) : NoScheme (x ++ y) := by
  intro a b hab hne
  rcases List.append_eq_append_iff.1 hab with ⟨d, rfl, hd⟩ | ⟨d, rfl, hd⟩
  · -- the colon lies in the second text
    cases d with
    | nil => exact absurd rfl (hy Byte.colon (by simp [hd])).2
    | cons c d => exact ⟨c, by simp, (hy c (by simp [hd])).1⟩
  · cases d with
    | nil => exact absurd rfl (hy Byte.colon (by simpa using congrArg List.head? hd.symm)).2
    | cons c d =>
        rw [List.cons_append, List.cons.injEq] at hd
        exact hx a d (by rw [hd.1]) hne

lemma NoScheme.of_append {x y : Str} (h : NoScheme (x ++ y)) : NoScheme x := by
  rintro a b rfl hne
  exact h a (b ++ y) (by simp) hne

end Parts

/-- A scheme is cut off exactly when the text starts like one. -/
lemma regexMatch_of_noScheme {s : Str} (h : Parts.NoScheme s) :
    regexMatch s = matchHier none s := by
  have hsplit := (List.takeWhile_append_dropWhile (p := (!isSchemeDelim ·)) (l := s)).symm
  rw [regexMatch]
  split
  · rename_i c rest hdrop
    split
    · rename_i hc
      simp only [Bool.and_eq_true, beq_iff_eq, Bool.not_eq_true', List.isEmpty_eq_false_iff] at hc
      rw [hdrop, hc.1] at hsplit
      obtain ⟨d, hd, hdelim⟩ := h _ _ hsplit hc.2
      have := List.mem_takeWhile_imp hd
      simp [hdelim] at this
    · rfl
  · rfl

lemma regexMatch_scheme {x s : Str} (hx : ∀ c ∈ x, isSchemeDelim c = false) (hne : x ≠ []) :
    regexMatch (x ++ Byte.colon :: s) = matchHier (some x) s := by
  have hstop : ∀ c ∈ (Byte.colon :: s).head?, (!isSchemeDelim c) = false := by
    intro c hc
    rw [List.head?_cons, Option.mem_some_iff] at hc
    rw [← hc]
    decide
  have hx' : ∀ c ∈ x, (!isSchemeDelim c) = true := fun c hc => by simp [hx c hc]
  rw [regexMatch, dropWhile_append_of_stop hx' hstop, takeWhile_append_of_stop hx' hstop]
  simp [hne]

lemma noScheme_of_regexMatch {s : Str} (h : (regexMatch s).scheme = none) : Parts.NoScheme s := by
  rintro x y rfl hne
  by_contra hx
  push Not at hx
  rw [regexMatch_scheme (by simpa using hx) hne] at h
  simp [matchHier] at h

namespace Parts

variable {t : Parts}

/-- What is printed after the scheme. -/
def hier (t : Parts) : Str :=
  (match t.authority with
    | some a => Byte.slash :: Byte.slash :: a.print
    | none => []) ++ (t.path ++ (t.query ++ t.fragment))

lemma print_eq_hier (t : Parts) :
    t.print = (if t.scheme.isEmpty then [] else t.scheme ++ [Byte.colon]) ++ t.hier := by
  simp [print, hier]

/-- What follows the authority begins with a delimiter. -/
lemma WF.head?_rest (h : t.WF) (ha : t.authority ≠ none) :
    ∀ c ∈ (t.path ++ (t.query ++ t.fragment)).head?, isAuthorityDelim c = true := by
  intro c hc
  cases hp : t.path with
  | nil =>
      rw [hp, List.nil_append] at hc
      rcases head?_tail h.query_head h.fragment_head c hc with rfl | rfl <;> decide
  | cons d p =>
      rw [hp, List.cons_append, List.head?_cons, Option.mem_some_iff] at hc
      rw [← hc, h.path_slash ha d (by simp [hp])]
      decide

/-- Without an authority the text does not begin like one. -/
lemma WF.not_network (h : t.WF) (ha : t.authority = none) {s : Str} :
    t.path ++ (t.query ++ t.fragment) ≠ Byte.slash :: Byte.slash :: s := by
  have hhead := head?_tail h.query_head h.fragment_head
  intro hs
  match hp : t.path, hs with
  | [], hs => exact absurd (hhead Byte.slash (by simpa using congrArg List.head? hs)) (by decide)
  | [e], hs =>
      rw [List.singleton_append, List.cons.injEq] at hs
      exact absurd (hhead Byte.slash (by simp [hs.2])) (by decide)
  | e :: g :: p, hs =>
      simp only [List.cons_append, List.cons.injEq] at hs
      exact h.path_rootless ha p (by rw [hp, hs.1, hs.2.1])

lemma matchHier_hier (h : t.WF) (scheme : Option Str) :
    matchHier scheme t.hier =
      { scheme := scheme
        authority := t.authority.map Authority.print
        path := t.path
        query := group t.query
        fragment := group t.fragment } := by
  obtain ⟨htake, hdrop⟩ := cut_path h.path_clean h.query_head h.fragment_head
  have htail := matchTail_append h.query_clean h.fragment_head
  cases ha : t.authority with
  | some a =>
      have hx : ∀ c ∈ a.print, (!isAuthorityDelim c) = true := fun c hc => by
        simp [(h.authority_wf a ha).print_not_delim c hc]
      have hy : ∀ c ∈ (t.path ++ (t.query ++ t.fragment)).head?, (!isAuthorityDelim c) = false :=
        fun c hc => by simp [h.head?_rest (by simp [ha]) c hc]
      simp only [hier, ha, List.cons_append, matchHier, beq_self_eq_true, Bool.and_self, if_true,
        takeWhile_append_of_stop hx hy, dropWhile_append_of_stop hx hy, htake, hdrop, htail,
        Option.map_some]
  | none =>
      rw [hier, ha, List.nil_append]
      unfold matchHier
      split
      · rename_i c d s hs
        have hcd : (c == Byte.slash && d == Byte.slash) = false := by
          by_contra hcd
          simp only [Bool.not_eq_false, Bool.and_eq_true, beq_iff_eq] at hcd
          rw [hcd.1, hcd.2] at hs
          exact h.not_network ha hs
        simp only [hcd, Bool.false_eq_true, if_false, htake, hdrop, htail, Option.map_none]
      · simp only [htake, hdrop, htail, Option.map_none]

/-- The match of a printed URL gives its parts. -/
lemma regexMatch_print (h : t.WF) :
    regexMatch t.print =
      { scheme := group t.scheme
        authority := t.authority.map Authority.print
        path := t.path
        query := group t.query
        fragment := group t.fragment } := by
  rw [print_eq_hier]
  by_cases hs : t.scheme = []
  · have hno : NoScheme t.hier := by
      cases ha : t.authority with
      | some a =>
          rintro x y hxy hne
          obtain ⟨c, x, rfl⟩ := List.exists_cons_of_ne_nil hne
          simp only [hier, ha, List.cons_append, List.cons.injEq] at hxy
          exact ⟨c, by simp, by rw [← hxy.1]; decide⟩
      | none =>
          rw [hier, ha, List.nil_append]
          refine (h.path_noScheme ha).append fun c hc => ?_
          rcases head?_tail h.query_head h.fragment_head c hc with rfl | rfl <;> decide
    have hg : group t.scheme = none := by simp [group, hs]
    simp only [hs, List.isEmpty_nil, if_true, List.nil_append]
    rw [regexMatch_of_noScheme hno, matchHier_hier h, ← hg, hs]
  · have hdelim : ∀ c ∈ t.scheme, isSchemeDelim c = false := fun c hc =>
      (not_schemeDelim_of_reScheme (h.scheme_ok hs).1 c hc).1
    have hg : group t.scheme = some t.scheme := by simp [group, hs]
    rw [if_neg (by simp [hs]), List.append_assoc, List.singleton_append,
      regexMatch_scheme hdelim hs, matchHier_hier h, hg]

/-! ### Reading a printed URL -/

lemma not_pathDelim_get {s : Str} (hs : Clean urlCharPath s) {p : Path}
    (hseg : p.segmt = (Path.assign s).segmt) : ∀ c ∈ p.get, isPathDelim c = false := by
  have hloc := Path.slashLocal_forall (fun c => isPathDelim c = false) (by decide)
  refine hloc.get fun x hx => ?_
  rw [hseg] at hx
  exact hloc.segmt_assign (not_pathDelim_of_clean hs) x hx

lemma syntaxOk_toUrl (h : t.WF) : t.toUrl.syntaxOk = true := by
  have hscheme : t.scheme.any isSchemeDelim = false := by
    rw [List.any_eq_false]
    intro c hc
    simp [(not_schemeDelim_of_reScheme (h.scheme_ok (List.ne_nil_of_mem hc)).1 c hc).1]
  have hquery : t.query.any (· == Byte.hash) = false := by
    rw [List.any_eq_false]
    intro c hc
    simp [ne_hash_of_clean h.query_clean c hc]
  have hpath : ∀ p : Path, p.segmt = (Path.assign t.path).segmt →
      p.get.any isPathDelim = false := by
    intro p hp
    rw [List.any_eq_false]
    intro c hc
    simp [not_pathDelim_get h.path_clean hp c hc]
  cases ha : t.authority with
  | none => simp [syntaxOk, toUrl, ha, hscheme, hquery, hpath _ rfl, validHost]
  | some a =>
      have hwf := h.authority_wf a ha
      have hhost : a.host.any isAuthorityDelim = false := by
        rw [List.any_eq_false]
        intro c hc
        simp [not_authorityDelim_of_clean hwf.host_clean c hc]
      have habs : (Path.assign t.path).setAbsolute true |>.slashBegin := rfl
      simp [syntaxOk, toUrl, ha, hscheme, hquery, hhost, hwf.host_valid, habs,
        hpath ((Path.assign t.path).setAbsolute true) rfl]

/-- The URL before the path, the query and the fragment are set. -/
def toUrlFront (t : Parts) : Url := { t.toUrl with path := {}, query := [], fragment := [] }

lemma assignScheme_group (h : t.WF) :
    assignScheme (group t.scheme) =
      .ok { scheme := t.scheme, hasAuthority := !t.scheme.isEmpty } := by
  by_cases hs : t.scheme = []
  · simp [group, hs, assignScheme]
  · obtain ⟨hre, hlow, -⟩ := h.scheme_ok hs
    simp [group, hs, assignScheme, setScheme, hre, hlow]

lemma assignAuthority_map (h : t.WF) :
    assignAuthority { scheme := t.scheme, hasAuthority := !t.scheme.isEmpty }
      (t.authority.map Authority.print) = .ok t.toUrlFront := by
  cases ha : t.authority with
  | none =>
      have hs : t.scheme = [] := by
        by_contra hs
        exact (h.scheme_ok hs).2.2 ha
      simp [assignAuthority, toUrlFront, toUrl, ha, hs]
  | some a =>
      have hwf := h.authority_wf a ha
      by_cases hhost : a.host = []
      · have hport : a.port = [] := by
          by_contra hp
          exact (hwf.port_ok hp).2.1 hhost
        simp [assignAuthority, Authority.print, hhost, setAuthority_nil, toUrlFront, toUrl, ha,
          hport]
      · simp only [Option.map_some, assignAuthority, setAuthority_print _ hwf hhost]
        simp [overwrite, toUrlFront, toUrl, ha, hhost]

lemma assignQuery_group {u : Url} (hu : u.query = []) {q : Str} (hq : Clean urlCharQuery q) :
    u.assignQuery (group q) = { u with query := q } := by
  by_cases h : q = []
  · simp [group, h, assignQuery, ← hu]
  · simp [group, h, assignQuery, setQuery, escape_of_clean hq]

lemma assignFragment_group {u : Url} (hu : u.fragment = []) {f : Str}
    (hf : Clean urlCharFragment f) : u.assignFragment (group f) = { u with fragment := f } := by
  by_cases h : f = []
  · simp [group, h, assignFragment, ← hu]
  · simp [group, h, assignFragment, setFragment, escape_of_clean hf]

lemma setPath_toUrlFront (h : t.WF) :
    t.toUrlFront.setPath t.path = { t.toUrl with query := [], fragment := [] } := by
  cases ha : t.authority <;>
    simp [setPath, escape_of_clean h.path_clean, toUrlFront, toUrl, ha]

lemma assignCheck_toUrl (h : t.WF) : assignCheck t.toUrl = .ok t.toUrl := by
  have hok := syntaxOk_toUrl h
  have hvalid : validHost t.toUrl.host = true := by
    simp only [syntaxOk, Bool.and_eq_true] at hok
    exact hok.1.1.2
  simp [assignCheck, hok, hvalid]

/-- The parts that are read back: the authority is not empty under a scheme other than `file`. -/
def Readable (t : Parts) : Prop :=
  t.scheme = [] ∨ t.scheme = lit "file" ∨ ∀ a ∈ t.authority, a.host ≠ []

lemma readable_iff : t.Readable ↔ ¬ (t.authority.map Authority.print = some [] ∧ t.scheme ≠ [] ∧
    t.scheme ≠ lit "file") := by
  have hauth : (∀ a ∈ t.authority, a.host ≠ []) ↔ ¬ t.authority.map Authority.print = some [] := by
    cases t.authority with
    | none => simp
    | some a => simp [Authority.print_eq_nil_iff]
  rw [Readable, hauth, not_and_or, not_and_or, not_not, not_not]
  constructor
  · rintro (h | h | h)
    · exact Or.inr (Or.inl h)
    · exact Or.inr (Or.inr h)
    · exact Or.inl h
  · rintro (h | h | h)
    · exact Or.inr (Or.inr h)
    · exact Or.inl h
    · exact Or.inr (Or.inl h)

/-- The printed text of well-formed parts is read back. -/
lemma assign_print (h : t.WF) (hr : t.Readable) : assign t.print = .ok t.toUrl := by
  have hurl : ({ t.toUrl with query := t.query, fragment := t.fragment } : Url) = t.toUrl := by
    cases ha : t.authority <;> simp [toUrl, ha]
  rw [assign, regexMatch_print h, assignMatch, assignScheme_group h]
  simp only [bind, Except.bind, if_neg (readable_iff.1 hr), assignAuthority_map h,
    setPath_toUrlFront h]
  rw [assignQuery_group rfl h.query_clean, assignFragment_group rfl h.fragment_clean]
  exact hurl ▸ assignCheck_toUrl h

/-- The text of the exception for an empty authority. -/
def emptyAuthority : Exn := .urlParseError
  (lit "empty authority part, with // is not allowed for schemes other than 'file'")

lemma assign_print_error (h : t.WF) (hr : ¬ t.Readable) :
    assign t.print = .error emptyAuthority := by
  rw [assign, regexMatch_print h, assignMatch, assignScheme_group h]
  simp only [bind, Except.bind, if_pos (not_not.1 (readable_iff.not.1 hr))]
  rfl

end Parts

end Url

end Mycelium
