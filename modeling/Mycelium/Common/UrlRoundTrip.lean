import Mycelium.Common.UrlParts

/-!
# Printing and reading URLs

The URLs that `assign` accepts have well-formed parts: every setter escapes what it stores, and
the regular expression has cut the string at the delimiters.  With the reading of printed parts
this gives the round trip `assign (get u) = u` for every accepted URL, up to the one authority
that the printer forgets: a userinfo in front of the empty IP literal `[]`.
-/

namespace Mycelium

open Lib

namespace Url

/-! ### What the setters accept -/

lemma setScheme_ok {base v : Url} {s : Str} (h : setScheme base s = .ok v) :
    reScheme.accepts s = true ∧
      v = { base with scheme := s.map toLower, hasAuthority := true } := by
  rw [setScheme] at h
  split at h
  · rename_i hre
    exact ⟨hre, (Except.ok.inj h).symm⟩
  · exact absurd h (by simp)

lemma reScheme_map_toLower {s : Str} (h : reScheme.accepts s = true) :
    reScheme.accepts (s.map toLower) = true := by
  rw [Regex.accepts_iff] at h ⊢
  refine h.forall₂ (R := fun c d => d = toLower c) ⟨?_, ?_⟩ ?_
  · rintro c d rfl hc
    simp only [isAlpha, toLower, Bool.or_eq_true, Bool.and_eq_true, decide_eq_true_eq] at hc ⊢
    grind
  · rintro c d rfl hc
    have hextra : lit "+.-" = [0x2B, 0x2E, 0x2D] := rfl
    simp only [hextra, isAlnum, isAlpha, isDigit, toLower, Bool.or_eq_true, Bool.and_eq_true,
      decide_eq_true_eq, List.contains_iff_mem] at hc ⊢
    grind
  · rw [List.forall₂_map_right_iff, List.forall₂_same]
    exact fun c _ => rfl

lemma setHost_ok {base v : Url} {s : Str} (h : setHost base s = .ok v) :
    validHost (escape s urlCharAuth) = true ∧
      v = { base with host := escape s urlCharAuth, hasAuthority := true } := by
  simp only [setHost] at h
  split at h
  · rename_i hv
    exact ⟨hv, (Except.ok.inj h).symm⟩
  · exact absurd h (by simp)

lemma setPort_ok {base v : Url} {s : Str} (hs : s ≠ []) (h : setPort base s = .ok v) :
    rePort.accepts s = true ∧ portNum s < 65536 ∧ 0 < portNum s ∧ v = { base with port := s } := by
  rw [setPort, if_neg (by simpa using hs)] at h
  split at h
  · exact absurd h (by simp)
  · rename_i hre
    split at h
    · exact absurd h (by simp)
    · rename_i hnum
      simp only [Bool.not_eq_true', Bool.and_eq_false_iff, decide_eq_false_iff_not, not_or,
        not_not] at hnum
      exact ⟨by simpa using hre, hnum.1, hnum.2, (Except.ok.inj h).symm⟩

lemma colon_not_mem_escape {s : Str} (h : Byte.colon ∉ s) : Byte.colon ∉ escape s urlCharAuth := by
  rwa [mem_escape_iff percent_auth delim_colon.toOutside (by decide)]

/-- A host without userinfo and port. -/
def Authority.ofHost (literal : Bool) (h : Str) : Authority :=
  { userinfo := [], literal := literal, host := escape h urlCharAuth, port := [] }

lemma Authority.wf_ofHost {literal : Bool} {h : Str} (hv : validHost (escape h urlCharAuth) = true)
    (hcolon : literal = false → Byte.colon ∉ h) : (Authority.ofHost literal h).WF where
  userinfo_clean := clean_nil
  userinfo_at := List.not_mem_nil
  host_clean := clean_escape percent_auth h
  host_valid := hv
  host_colon hl := colon_not_mem_escape (hcolon hl)
  port_ok hp := absurd rfl hp

/-- The texts of a host and a port that the setter accepts: a literal, a host, and a host with a
port. -/
lemma setHostPort_cases {base v : Url} {s h : Str} (hv : setHostPort base s h = .ok v) :
    (∃ x z, h = Byte.lbracket :: (x ++ Byte.rbracket :: z) ∧ Byte.rbracket ∉ x ∧
      setHost { base with hostIpLiteral := true } x = .ok v) ∨
    (h.head? ≠ some Byte.lbracket ∧ Byte.colon ∉ h ∧ setHost base h = .ok v) ∨
    ∃ x port w, h = x ++ Byte.colon :: port ∧ x ≠ [] ∧ h.head? ≠ some Byte.lbracket ∧
      Byte.colon ∉ x ∧ port ≠ [] ∧ setHost base x = .ok w ∧ setPort w port = .ok v := by
  cases h with
  | nil => exact Or.inr (Or.inl ⟨by simp, List.not_mem_nil, hv⟩)
  | cons c rest =>
      rw [setHostPort] at hv
      split at hv
      · rename_i hc
        subst hc
        split at hv
        · exact absurd hv (by simp)
        · split at hv
          · rename_i hmem
            rw [List.contains_iff_mem] at hmem
            obtain ⟨x, z, rfl, hx⟩ := List.eq_append_cons_of_mem hmem
            rw [takeWhile_bne_append hx] at hv
            exact Or.inl ⟨x, z, rfl, hx, hv⟩
          · exact absurd hv (by simp)
      · rename_i hc
        have hhead : (c :: rest).head? ≠ some Byte.lbracket := by simpa using hc
        split at hv
        · rename_i hdrop
          exact Or.inr (Or.inl ⟨hhead, dropWhile_bne_eq_nil_iff.1 hdrop, hv⟩)
        · rename_i d port hdrop
          split at hv
          · exact absurd hv (by simp)
          · rename_i hfirst
            obtain ⟨w, hw, hv⟩ := bind_eq_ok.1 hv
            split at hv
            · exact absurd hv (by simp)
            · rename_i hport
              exact Or.inr (Or.inr ⟨_, port, w, eq_append_of_dropWhile_bne hdrop, by simp [hfirst],
                hhead, notMem_takeWhile_bne, by simpa using hport, hw, hv⟩)

/-- What the host and the port that the setter accepts look like.  Only an empty text and the
brackets `[]` give an empty host. -/
lemma setHostPort_ok {base v : Url} {s h : Str} (hv : setHostPort base s h = .ok v) :
    ∃ a : Authority, a.WF ∧ a.userinfo = [] ∧ v = base.overwrite a ∧
      (a.host = [] ↔ h = [] ∨ ∃ z, h = Byte.lbracket :: Byte.rbracket :: z) := by
  rcases setHostPort_cases hv with
    ⟨x, z, rfl, hx, hset⟩ | ⟨hb, hcolon, hset⟩ | ⟨x, port, w, rfl, hx, hb, hcolon, hport, hset, hv⟩
  · obtain ⟨hval, rfl⟩ := setHost_ok hset
    refine ⟨.ofHost true x, Authority.wf_ofHost hval (by simp), rfl,
      by simp [overwrite, Authority.ofHost], ?_⟩
    rw [Authority.ofHost, escape_eq_nil_iff]
    cases x with
    | nil => simp
    | cons c x =>
        have hc : c ≠ Byte.rbracket := fun hc => hx (by simp [hc])
        simp [hc]
  · obtain ⟨hval, rfl⟩ := setHost_ok hset
    refine ⟨.ofHost false h, Authority.wf_ofHost hval fun _ => hcolon, rfl,
      by simp [overwrite, Authority.ofHost], ?_⟩
    rw [Authority.ofHost, escape_eq_nil_iff]
    refine ⟨Or.inl, ?_⟩
    rintro (rfl | ⟨z, rfl⟩)
    · rfl
    · exact absurd rfl hb
  · obtain ⟨hval, rfl⟩ := setHost_ok hset
    obtain ⟨hre, hlt, hpos, rfl⟩ := setPort_ok hport hv
    have hwf : (Authority.ofHost false x).WF := Authority.wf_ofHost hval fun _ => hcolon
    have hhost : escape x urlCharAuth ≠ [] := by rwa [Ne, escape_eq_nil_iff]
    refine ⟨{ Authority.ofHost false x with port := port },
      { hwf with port_ok := fun _ => ⟨rfl, hhost, hre, hlt, hpos⟩ }, rfl,
      by simp [overwrite, Authority.ofHost, hport], ?_⟩
    refine ⟨fun h => absurd h hhost, ?_⟩
    rintro (h | ⟨z, h⟩)
    · exact absurd h (by simp)
    · exact absurd (congrArg List.head? h) hb

/-- The text of an authority before its first `@`. -/
def userText (s : Str) : Str :=
  match s.dropWhile (· != Byte.atSign) with
  | [] => []
  | _ :: _ => s.takeWhile (· != Byte.atSign)

/-- The text of an authority after its first `@`. -/
def hostText (s : Str) : Str :=
  match s.dropWhile (· != Byte.atSign) with
  | [] => s
  | _ :: h => h

/-- The text of an authority without a host, or with the empty IP literal. -/
def EmptyHost (s : Str) : Prop :=
  hostText s = [] ∨ ∃ z, hostText s = Byte.lbracket :: Byte.rbracket :: z

section Texts

variable {s h : Str} {c : UInt8}

lemma texts_of_nil (hs : s.dropWhile (· != Byte.atSign) = []) :
    userText s = [] ∧ hostText s = s := by
  simp [userText, hostText, hs]

lemma texts_of_cons (hs : s.dropWhile (· != Byte.atSign) = c :: h) :
    userText s = s.takeWhile (· != Byte.atSign) ∧ hostText s = h := by
  simp [userText, hostText, hs]

end Texts

lemma setAuthority_ok {base v : Url} {s : Str} (hbase : base.userinfo = [])
    (hv : setAuthority base s = .ok v) :
    ∃ a : Authority, a.WF ∧ v = base.overwrite a ∧ (a.userinfo = [] ↔ userText s = []) ∧
      (a.host = [] ↔ EmptyHost s) := by
  rw [setAuthority] at hv
  split at hv
  · rename_i hdrop
    obtain ⟨a, hwf, hui, rfl, hhost⟩ := setHostPort_ok hv
    obtain ⟨huser, htext⟩ := texts_of_nil hdrop
    refine ⟨a, hwf, rfl, by simp [hui, huser], ?_⟩
    rw [EmptyHost, htext]
    exact hhost
  · rename_i c h hdrop
    obtain ⟨huser, htext⟩ := texts_of_cons hdrop
    split at hv
    · exact absurd hv (by simp)
    · obtain ⟨a, hwf, hui, rfl, hhost⟩ := setHostPort_ok hv
      have hat : Byte.atSign ∉ userText s := by
        rw [huser]
        exact notMem_takeWhile_bne
      rw [EmptyHost, htext, ← huser]
      generalize userText s = x at hat
      refine ⟨{ a with userinfo := escape x urlCharAuth }, ?_, ?_, escape_eq_nil_iff, hhost⟩
      · exact { hwf with
          userinfo_clean := clean_escape percent_auth x
          userinfo_at := fun hmem =>
            hat ((mem_escape_iff percent_auth delim_atSign.toOutside (by decide)).1 hmem) }
      · by_cases hxe : escape x urlCharAuth = []
        · simp [overwrite, setUserinfo, hui, hxe, hbase]
        · simp [overwrite, setUserinfo, hui, hxe]

/-! ### What the match hands over -/

lemma regexMatch_cases (s : Str) :
    (regexMatch s = matchHier none s ∧ Parts.NoScheme s) ∨
      ∃ x t, regexMatch s = matchHier (some x) t := by
  by_cases h : Parts.NoScheme s
  · exact Or.inl ⟨regexMatch_of_noScheme h, h⟩
  · rw [Parts.NoScheme] at h
    push Not at h
    obtain ⟨x, y, rfl, hne, hx⟩ := h
    exact Or.inr ⟨x, y, regexMatch_scheme (by simpa using hx) hne⟩

/-- The groups after the authority are cut from what the authority leaves. -/
lemma matchHier_rest (x : Option Str) (s : Str) : ∃ r,
    (matchHier x s).path = r.takeWhile (!isPathDelim ·) ∧
    (matchHier x s).query = (matchTail (r.dropWhile (!isPathDelim ·))).1 ∧
    (matchHier x s).fragment = (matchTail (r.dropWhile (!isPathDelim ·))).2 ∧
    ((matchHier x s).authority = none → r = s) := by
  refine ⟨_, rfl, rfl, rfl, ?_⟩
  split
  · split
    · rename_i hc
      intro h
      simp [matchHier, hc] at h
    · exact fun _ => rfl
  · exact fun _ => rfl

lemma regexMatch_rest (s : Str) : ∃ r,
    (regexMatch s).path = r.takeWhile (!isPathDelim ·) ∧
    (regexMatch s).query = (matchTail (r.dropWhile (!isPathDelim ·))).1 ∧
    (regexMatch s).fragment = (matchTail (r.dropWhile (!isPathDelim ·))).2 ∧
    ((regexMatch s).scheme = none → (regexMatch s).authority = none → r = s) := by
  rcases regexMatch_cases s with ⟨h, -⟩ | ⟨x, t, h⟩
  · obtain ⟨r, hp, hq, hf, ha⟩ := matchHier_rest none s
    rw [h]
    exact ⟨r, hp, hq, hf, fun _ => ha⟩
  · obtain ⟨r, hp, hq, hf, -⟩ := matchHier_rest (some x) t
    rw [h]
    exact ⟨r, hp, hq, hf, fun hs => absurd hs (by simp [matchHier])⟩

section Match

variable {s q f : Str}

lemma head?_query (h : (regexMatch s).query = some q) : ∀ c ∈ q.head?, c = Byte.question := by
  obtain ⟨r, -, hq, -, -⟩ := regexMatch_rest s
  rw [hq, matchTail] at h
  split at h
  · exact absurd h (by simp)
  · intro c hc
    rw [← Option.some.inj h] at hc
    -- the first character stops the path and does not stop the query
    cases ht : r.dropWhile (!isPathDelim ·) with
    | nil => simp [ht] at hc
    | cons d t =>
        have hd : isPathDelim d = true := by
          have := head?_dropWhile (p := (!isPathDelim ·)) (x := r) (d := d) (by simp [ht])
          simpa using this
        rw [ht] at hc
        by_cases hh : d = Byte.hash
        · simp [hh] at hc
        · simp only [List.takeWhile_cons, bne_iff_ne, ne_eq, hh, not_false_eq_true, if_true,
            List.head?_cons, Option.mem_some_iff] at hc
          rw [← hc]
          simpa [isPathDelim, hh] using hd

lemma head?_fragment (h : (regexMatch s).fragment = some f) : ∀ c ∈ f.head?, c = Byte.hash := by
  obtain ⟨r, -, -, hf, -⟩ := regexMatch_rest s
  simp only [hf, matchTail] at h
  split at h
  · exact absurd h (by simp)
  · intro c hc
    rw [← Option.some.inj h] at hc
    simpa using head?_dropWhile hc

lemma not_pathDelim_path : ∀ c ∈ (regexMatch s).path, isPathDelim c = false := by
  obtain ⟨r, hp, -, -, -⟩ := regexMatch_rest s
  intro c hc
  rw [hp] at hc
  simpa using List.mem_takeWhile_imp hc

lemma noScheme_path (hs : (regexMatch s).scheme = none) (ha : (regexMatch s).authority = none) :
    Parts.NoScheme (regexMatch s).path := by
  obtain ⟨r, hp, -, -, hr⟩ := regexMatch_rest s
  have hno := noScheme_of_regexMatch hs
  rw [hp, hr hs ha]
  rw [← List.takeWhile_append_dropWhile (p := (!isPathDelim ·)) (l := s)] at hno
  exact hno.of_append

end Match

/-! ### The text of a path without scheme and authority -/

namespace Parts

lemma noScheme_append_colon {x y : Str} (hx : Byte.colon ∉ x) :
    NoScheme (x ++ Byte.colon :: y) ↔ (x ≠ [] → ∃ c ∈ x, isSchemeDelim c = true) := by
  constructor
  · intro h hne
    exact h x y rfl hne
  · intro h a b hab hne
    by_cases ha : Byte.colon ∈ a
    · exact ⟨Byte.colon, ha, by decide⟩
    · rcases List.append_eq_append_iff.1 hab with ⟨d, rfl, hd⟩ | ⟨d, rfl, hd⟩
      · cases d with
        | nil => simpa using h (by simpa using hne)
        | cons c d =>
            rw [List.cons_append, List.cons.injEq] at hd
            exact absurd (by simp [hd.1]) ha
      · cases d with
        | nil => simpa using h (by simpa using hne)
        | cons c d =>
            rw [List.cons_append, List.cons.injEq] at hd
            exact absurd (by simp [hd.1]) hx

/-- A text has no scheme when its first colon follows what the first colon of another text
without scheme follows. -/
lemma NoScheme.transfer {p r : Str} (hp : NoScheme p) (hnone : Byte.colon ∉ p → Byte.colon ∉ r)
    (hcut : ∀ x y, p = x ++ Byte.colon :: y → Byte.colon ∉ x → ∃ x' y',
      r = x' ++ Byte.colon :: y' ∧ Byte.colon ∉ x' ∧ (x = [] → x' = []) ∧
      ∀ c ∈ x, isSchemeDelim c = true → c ∈ x') : NoScheme r := by
  by_cases hcolon : Byte.colon ∈ p
  · obtain ⟨x, y, rfl, hx⟩ := List.eq_append_cons_of_mem hcolon
    obtain ⟨x', y', rfl, hx', hnil, hdelim⟩ := hcut x y rfl hx
    rw [noScheme_append_colon hx] at hp
    rw [noScheme_append_colon hx']
    intro hne
    obtain ⟨c, hc, hcd⟩ := hp fun h => hne (hnil h)
    exact ⟨c, hdelim c hc hcd, hcd⟩
  · rintro x y rfl
    exact absurd (by simp) (hnone hcolon)

end Parts

/-- Of the four delimiters only the slash can stand before the first colon of a path. -/
lemma eq_slash_of_delim {c : UInt8} (hs : isSchemeDelim c = true) (hp : isPathDelim c = false)
    (hc : c ≠ Byte.colon) : c = Byte.slash := by
  simp only [isSchemeDelim, isPathDelim, Bool.or_eq_true, beq_iff_eq, Bool.or_eq_false_iff,
    beq_eq_false_iff_ne] at hs hp
  rcases hs with ((rfl | rfl) | rfl) | rfl
  · exact absurd rfl hc
  · rfl
  · exact absurd rfl hp.1
  · exact absurd rfl hp.2

lemma noScheme_escape {p : Str} (hp : Parts.NoScheme p) (hd : ∀ c ∈ p, isPathDelim c = false) :
    Parts.NoScheme (escape p urlCharPath) := by
  have hmem : ∀ x : Str, Byte.colon ∈ escape x urlCharPath ↔ Byte.colon ∈ x := fun x =>
    mem_escape_iff percent_path delim_colon.toOutside (by decide)
  refine hp.transfer (fun h => (hmem p).not.2 h) ?_
  rintro x y rfl hx
  refine ⟨_, _, escape_append_cons delim_colon.toOutside (by decide) x y, (hmem x).not.2 hx,
    escape_eq_nil_iff.2, fun c hc hcd => ?_⟩
  have hslash := eq_slash_of_delim hcd (hd c (by simp [hc])) fun h => hx (h ▸ hc)
  rw [hslash] at hc ⊢
  exact (mem_escape_iff percent_path delim_slash.toOutside (by decide)).2 hc

lemma noScheme_get_assign {p : Str} (hp : Parts.NoScheme p) :
    Parts.NoScheme (Path.assign p).get := by
  intro x y hxy hne
  by_contra hx
  push Not at hx
  have hslash : ∀ c ∈ x ++ [Byte.colon], (c != Byte.slash) = true := by
    intro c hc
    rw [bne_iff_ne]
    rintro rfl
    rcases List.mem_append.1 hc with hc | hc
    · exact hx _ hc (by decide)
    · exact absurd (List.mem_singleton.1 hc) (by decide)
  have htake := Path.takeWhile_get_assign p
  rw [hxy, ← List.singleton_append, ← List.append_assoc,
    List.takeWhile_append_of_pos hslash] at htake
  have hsplit := (List.takeWhile_append_dropWhile (p := (· != Byte.slash)) (l := p)).symm
  rw [← htake, List.append_assoc, List.append_assoc] at hsplit
  obtain ⟨c, hc, hcd⟩ := hp x _ hsplit hne
  exact hx c hc hcd

/-! ### Accepted URLs are well formed -/

/-- What is known of the URL after the scheme and the authority have been set. -/
structure Front (m : Match) (u : Url) : Prop where
  scheme_ok : u.scheme ≠ [] →
    reScheme.accepts u.scheme = true ∧ u.scheme.map toLower = u.scheme ∧ u.hasAuthority = true
  authority_wf : Authority.WF
    { userinfo := u.userinfo, literal := u.hostIpLiteral, host := u.host, port := u.port }
  no_authority : u.hasAuthority = false → m.scheme = none ∧ m.authority = none ∧ u = {}
  query : u.query = []
  fragment : u.fragment = []
  scheme_iff : u.scheme = [] ↔ m.scheme = none
  scheme_eq : u.scheme = (m.scheme.map (List.map toLower)).getD []
  userinfo_iff : u.userinfo = [] ↔ ∀ a ∈ m.authority, userText a = []
  host_iff : u.host = [] ↔ ∀ a ∈ m.authority, EmptyHost a

lemma assignScheme_ok {x : Option Str} {u : Url} (h : assignScheme x = .ok u) :
    ∃ scheme, u = { scheme := scheme, hasAuthority := !scheme.isEmpty } ∧ (scheme = [] ↔ x = none) ∧
      scheme = (x.map (List.map toLower)).getD [] ∧
      (scheme ≠ [] → reScheme.accepts scheme = true ∧ scheme.map toLower = scheme) := by
  cases x with
  | none => exact ⟨[], (Except.ok.inj h).symm, by simp, rfl, fun h => absurd rfl h⟩
  | some s =>
      obtain ⟨hre, rfl⟩ := setScheme_ok h
      have hne : s ≠ [] := by
        rintro rfl
        exact absurd hre (by decide)
      refine ⟨s.map toLower, by simp [hne], by simp [hne], rfl,
        fun _ => ⟨reScheme_map_toLower hre, ?_⟩⟩
      simp [Function.comp_def, toLower_toLower]

lemma wf_empty : Authority.WF { userinfo := [], literal := false, host := [], port := [] } where
  userinfo_clean := clean_nil
  userinfo_at := List.not_mem_nil
  host_clean := clean_nil
  host_valid := rfl
  host_colon _ := List.not_mem_nil
  port_ok h := absurd rfl h

lemma front_of_assign {m : Match} {u v : Url} (hs : assignScheme m.scheme = .ok u)
    (ha : u.assignAuthority m.authority = .ok v) : Front m v := by
  obtain ⟨scheme, rfl, hnone, heq, hscheme⟩ := assignScheme_ok hs
  cases hm : m.authority with
  | none =>
      rw [hm] at ha
      obtain rfl := Except.ok.inj ha
      refine ⟨fun h => ?_, wf_empty, fun h => ?_, rfl, rfl, hnone, heq, by simp [hm], by simp [hm]⟩
      · exact ⟨(hscheme h).1, (hscheme h).2, by simpa using h⟩
      · have hnil : scheme = [] := by simpa using h
        exact ⟨hnone.1 hnil, hm, by simp [hnil]⟩
  | some s =>
      rw [hm] at ha
      obtain ⟨a, hwf, rfl, huser, hhost⟩ := setAuthority_ok rfl ha
      have hui : (if a.userinfo.isEmpty = true then [] else a.userinfo) = a.userinfo := by
        cases a.userinfo <;> rfl
      have hport : (if a.port.isEmpty = true then [] else a.port) = a.port := by
        cases a.port <;> rfl
      refine ⟨fun h => ⟨(hscheme h).1, (hscheme h).2, rfl⟩, ?_,
        fun h => absurd h (by simp [overwrite]), rfl, rfl, hnone, heq, ?_,
        by simpa [hm, overwrite] using hhost⟩
      · simpa only [overwrite, Bool.false_or, hui, hport] using hwf
      · simpa only [overwrite, hui, hm, Option.mem_def, Option.some.injEq, forall_eq'] using huser

/-- The checks at the end change nothing. -/
lemma assignCheck_ok {u v : Url} (h : assignCheck u = .ok v) : v = u ∧ u.syntaxOk = true := by
  rw [assignCheck] at h
  split at h
  · exact absurd h (by simp)
  · rename_i hsyn
    split at h
    · exact absurd h (by simp)
    · exact ⟨(Except.ok.inj h).symm, by simpa using hsyn⟩

/-- The steps of an accepted `assign`. -/
lemma assign_cases {s : Str} {u : Url} (h : assign s = .ok u) :
    ∃ v, Front (regexMatch s) v ∧ u.syntaxOk = true ∧
      u = ((v.setPath (regexMatch s).path).assignQuery (regexMatch s).query).assignFragment
        (regexMatch s).fragment := by
  obtain ⟨w, hw, h⟩ := bind_eq_ok.1 h
  split at h
  · exact absurd h (by simp)
  · obtain ⟨v, hv, h⟩ := bind_eq_ok.1 h
    obtain ⟨rfl, hsyn⟩ := assignCheck_ok h
    exact ⟨v, front_of_assign hw hv, hsyn, rfl⟩

lemma assignQuery_eq {u : Url} (hu : u.query = []) (q : Option Str) :
    u.assignQuery q = { u with query := escape (q.getD []) urlCharQuery } := by
  cases q with
  | none =>
      rw [Option.getD_none, escape, ← hu]
      rfl
  | some q => rfl

lemma assignFragment_eq {u : Url} (hu : u.fragment = []) (f : Option Str) :
    u.assignFragment f = { u with fragment := escape (f.getD []) urlCharFragment } := by
  cases f with
  | none =>
      rw [Option.getD_none, escape, ← hu]
      rfl
  | some f => rfl

/-- The first character of an escaped group is the first character of the group. -/
lemma head?_escape {d : UInt8} {mask : UInt8} (hd : Outside d) (hm : urlCharTest d mask = false)
    {x : Option Str} (h : ∀ s, x = some s → ∀ c ∈ s.head?, c = d) :
    ∀ c ∈ (escape (x.getD []) mask).head?, c = d := by
  intro c hc
  cases x with
  | none => simp [escape] at hc
  | some s =>
      cases s with
      | nil => simp [escape] at hc
      | cons e s =>
          obtain rfl := h _ rfl e rfl
          have := escape_append_cons hd hm [] s
          rw [Option.getD_some, ← List.nil_append (e :: s), this] at hc
          simpa [escape] using hc.symm

/-- An accepted URL, component by component. -/
lemma assign_eq {s : Str} {u : Url} (h : assign s = .ok u) :
    ∃ v, Front (regexMatch s) v ∧
      u = { v with
        path := (v.setPath (regexMatch s).path).path
        query := escape ((regexMatch s).query.getD []) urlCharQuery
        fragment := escape ((regexMatch s).fragment.getD []) urlCharFragment } := by
  obtain ⟨v, hv, -, rfl⟩ := assign_cases h
  refine ⟨v, hv, ?_⟩
  have hq : (v.setPath (regexMatch s).path).query = [] := hv.query
  rw [assignQuery_eq hq, assignFragment_eq]
  · rfl
  · exact hv.fragment

/-- The parts of every accepted URL are well formed. -/
lemma wf_of_assign {s : Str} {u : Url} (h : assign s = .ok u) : u.parts.WF := by
  obtain ⟨v, hv, rfl⟩ := assign_eq h
  have hclean := clean_escape percent_path (regexMatch s).path
  have hloc : Path.SlashLocal (Clean urlCharPath) := Path.slashLocal_clean (by decide)
  have hseg : (v.setPath (regexMatch s).path).path.segmt
      = (Path.assign (escape (regexMatch s).path urlCharPath)).segmt := by
    simp only [setPath]
    split <;> rfl
  refine
    { scheme_ok := fun hs => ?_
      authority_wf := fun a ha => ?_
      path_clean := ?_
      path_slash := fun ha => ?_
      path_rootless := fun _ => (Path.get_head _).2
      path_noScheme := fun ha => ?_
      query_clean := clean_escape percent_query _
      query_head := head?_escape delim_question.toOutside (by decide) fun _ => head?_query
      fragment_clean := clean_escape percent_fragment _
      fragment_head := head?_escape delim_hash.toOutside (by decide) fun _ => head?_fragment }
  · obtain ⟨hre, hlow, ha⟩ := hv.scheme_ok hs
    exact ⟨hre, hlow, by simp [parts, ha]⟩
  · simp only [parts, Option.mem_def] at ha
    split at ha
    · obtain rfl := Option.some.inj ha
      exact hv.authority_wf
    · exact absurd ha (by simp)
  · -- the text of the path is put together from the segments of the escaped text
    refine hloc.get fun x hx => ?_
    rw [hseg] at hx
    exact hloc.segmt_assign hclean x hx
  · have ha' : v.hasAuthority = true := by
      by_contra hn
      exact ha (by simp [parts, hn])
    obtain ⟨t, ht⟩ := (Path.get_head (v.setPath (regexMatch s).path).path).1
      (by simp [setPath, ha', Path.setAbsolute])
    intro c hc
    simp only [parts, ht] at hc
    simpa using hc.symm
  · have ha' : v.hasAuthority = false := by
      by_contra hn
      exact absurd ha (by simp [parts, hn])
    obtain ⟨hs, hau, -⟩ := hv.no_authority ha'
    have hno := noScheme_escape (noScheme_path hs hau) not_pathDelim_path
    simpa [parts, setPath, ha'] using noScheme_get_assign hno

/-- What is known of the URLs that `assign` builds. -/
structure Accepted (u : Url) : Prop where
  wf : u.parts.WF
  syntaxOk : u.syntaxOk = true
  absolute : u.hasAuthority = true → u.path.slashBegin = true
  blank : u.hasAuthority = false →
    u.scheme = [] ∧ u.userinfo = [] ∧ u.hostIpLiteral = false ∧ u.host = [] ∧ u.port = []

lemma Accepted.hasAuthority_of_host {u : Url} (h : Accepted u) (hhost : u.host ≠ []) :
    u.hasAuthority = true := by
  by_contra ha
  exact hhost (h.blank (by simpa using ha)).2.2.2.1

lemma accepted_of_assign {s : Str} {u : Url} (h : assign s = .ok u) : Accepted u := by
  refine ⟨wf_of_assign h, ?_, ?_, ?_⟩
  · obtain ⟨-, -, hsyn, -⟩ := assign_cases h
    exact hsyn
  · obtain ⟨v, -, rfl⟩ := assign_eq h
    intro ha
    have ha' : v.hasAuthority = true := ha
    simp [setPath, ha', Path.setAbsolute]
  · obtain ⟨v, hv, rfl⟩ := assign_eq h
    intro ha
    obtain ⟨-, -, rfl⟩ := hv.no_authority ha
    exact ⟨rfl, rfl, rfl, rfl, rfl⟩

/-! ### The round trip -/

/-- Reading the text of an absolute path gives an absolute path. -/
lemma slashBegin_assign_get {p : Path} (h : p.slashBegin = true) :
    (Path.assign p.get).slashBegin = true := by
  obtain ⟨t, ht⟩ := p.get_head.1 h
  rw [ht]
  rfl

/-- What is read back from the text of an accepted URL. -/
lemma toUrl_parts {u : Url} (h : Accepted u) :
    u.parts.toUrl = { u with
      path := Path.assign u.path.get
      userinfo := if u.host.isEmpty then [] else u.userinfo
      hostIpLiteral := !u.host.isEmpty && u.hostIpLiteral } := by
  cases ha : u.hasAuthority with
  | false =>
      obtain ⟨-, -, hl, hh, hp⟩ := h.blank ha
      simp [Parts.toUrl, parts, ha, hl, hh, hp]
  | true =>
      have habs := slashBegin_assign_get (h.absolute ha)
      simp [Parts.toUrl, parts, ha, Path.setAbsolute, ← habs]

lemma get_toUrl_parts {u : Url} (h : Accepted u) : u.parts.toUrl.get = u.get := by
  rw [toUrl_parts h]
  by_cases hh : u.host = []
  · simp [get, authority, hh, Path.get_assign_get]
  · simp [get, authority, hh, Path.get_assign_get]

lemma readable_parts_iff {u : Url} (h : Accepted u) :
    u.parts.Readable ↔ u.scheme = [] ∨ u.scheme = lit "file" ∨ u.host ≠ [] := by
  cases ha : u.hasAuthority with
  | false =>
      have hs := (h.blank ha).1
      simp [Parts.Readable, parts, hs]
  | true => simp [Parts.Readable, parts, ha]

/-- Printing and reading gives the same components and the same text. -/
def RoundTrip (u : Url) : Prop :=
  ∃ v, assign u.get = .ok v ∧ v.scheme = u.scheme ∧ v.userinfo = u.userinfo ∧ v.host = u.host ∧
    v.port = u.port ∧ v.path.get = u.path.get ∧ v.query = u.query ∧ v.fragment = u.fragment ∧
    v.hasAuthority = u.hasAuthority ∧ v.get = u.get

/-- The userinfo and the host of an accepted URL, on the text. -/
lemma authority_of_assign {s : Str} {u : Url} (h : assign s = .ok u) :
    (u.userinfo = [] ↔ ∀ a ∈ (regexMatch s).authority, userText a = []) ∧
      (u.host = [] ↔ ∀ a ∈ (regexMatch s).authority, EmptyHost a) := by
  obtain ⟨v, hv, rfl⟩ := assign_eq h
  exact ⟨hv.userinfo_iff, hv.host_iff⟩

/-- The scheme of an accepted URL, on the text. -/
lemma scheme_of_assign {s : Str} {u : Url} (h : assign s = .ok u) :
    (u.scheme = [] ↔ (regexMatch s).scheme = none) ∧
      u.scheme = ((regexMatch s).scheme.map (List.map toLower)).getD [] := by
  obtain ⟨v, hv, rfl⟩ := assign_eq h
  exact ⟨hv.scheme_iff, hv.scheme_eq⟩

/-- The round trip of every accepted text: it succeeds exactly when the authority of the text is
not a userinfo followed by `@[]`, whose empty host the printer takes for no authority. -/
theorem roundTrip_iff {s : Str} {u : Url} (h : assign s = .ok u)
    (hu : u.host ≠ [] ∨ u.scheme = []) :
    RoundTrip u ↔ ∀ a ∈ (regexMatch s).authority, EmptyHost a → userText a = [] := by
  have hacc := accepted_of_assign h
  have hread : assign u.get = .ok u.parts.toUrl := by
    rw [← print_parts]
    refine Parts.assign_print hacc.wf ((readable_parts_iff hacc).2 ?_)
    rcases hu with hu | hu
    · exact Or.inr (Or.inr hu)
    · exact Or.inl hu
  have hcond : (∀ a ∈ (regexMatch s).authority, EmptyHost a → userText a = []) ↔
      (u.host = [] → u.userinfo = []) := by
    rw [(authority_of_assign h).1, (authority_of_assign h).2]
    cases (regexMatch s).authority <;> simp
  rw [hcond, RoundTrip]
  constructor
  · rintro ⟨v, hv, -, hui, -⟩ hhost
    rw [hread] at hv
    rw [← Except.ok.inj hv, toUrl_parts hacc] at hui
    simp only [hhost, List.isEmpty_nil, if_true] at hui
    exact hui.symm
  · intro hno
    refine ⟨u.parts.toUrl, hread, ?_⟩
    -- the printer leaves the userinfo out when the host is empty
    have hui : (if u.host.isEmpty = true then [] else u.userinfo) = u.userinfo := by
      by_cases hh : u.host = []
      · simp [hno hh]
      · simp [hh]
    have hget := get_toUrl_parts hacc
    rw [toUrl_parts hacc] at hget ⊢
    exact ⟨rfl, hui, rfl, rfl, Path.get_assign_get _, rfl, rfl, rfl, hget⟩

theorem roundTrip_iff_full :
    RoundTrip { scheme := lit "http", hasAuthority := true, userinfo := lit "u", host := lit "a.b"
                port := lit "80", path := Path.assign (lit "/x%20y/z")
                query := lit "?q", fragment := lit "#f" } ↔
      ∀ a ∈ (regexMatch (lit "HTTP://u@a.b:80/x%20y//z?q#f")).authority,
        EmptyHost a → userText a = [] :=
  roundTrip_iff (s := lit "HTTP://u@a.b:80/x%20y//z?q#f") rfl (Or.inl (by decide))

/-- The userinfo of `//u@[]/` is accepted and not printed. -/
theorem not_roundTrip_emptyLiteral :
    ∃ u, assign (lit "//u@[]/") = .ok u ∧ u.scheme = [] ∧ u.userinfo = lit "u" ∧ ¬ RoundTrip u := by
  refine ⟨{ hasAuthority := true, hostIpLiteral := true, userinfo := lit "u"
            path := Path.assign (lit "/") }, rfl, rfl, rfl, ?_⟩
  rintro ⟨v, hv, -, hui, -⟩
  have hread : assign (lit "///") = .ok { hasAuthority := true, path := Path.assign (lit "/") } :=
    rfl
  obtain rfl := Except.ok.inj (hread.symm.trans hv)
  exact absurd hui (by decide)

end Url

end Mycelium
