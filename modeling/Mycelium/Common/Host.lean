import Mycelium.Common.Url

/-!
# Valid hosts

What `Url::valid_host` accepts.  The four expressions are matched against the host with its safe
escapes decoded.  None of their classes contains `%`, a delimiter of URLs, or an upper-case
letter without its lower-case one.  Hence in a valid host every `%` starts an escape of a safe
character, and a valid host stays valid under `normalize`.
-/

namespace Mycelium

open Lib

namespace Url

/-- The characters of the classes of the four expressions. -/
def hostChar (c : UInt8) : Bool := isAlnum c || (lit "._~!$&'()*+,;=:-").contains c

/-- The relation of a character to itself and to its lower-case form. -/
def LowerRel (c d : UInt8) : Prop := d = c ∨ d = toLower c

/-- The classes of the four expressions contain host characters only and are closed under lower
case. -/
def HostCls (p : UInt8 → Bool) : Prop :=
  ∀ c, p c = true → hostChar c = true ∧ p (toLower c) = true

/-- The four expressions of `valid_host`. -/
def HostMatches (w : Str) : Prop :=
  reHost.Matches w ∨ reIpvfut.Matches w ∨ reIpv6.Matches w ∨ reIpv4.Matches w

lemma validHost_iff (h : Str) : validHost h = true ↔ h = [] ∨ HostMatches (unescapeSafe h) := by
  simp only [validHost, Bool.or_eq_true, List.isEmpty_iff, HostMatches, Regex.accepts_iff, or_assoc]

/-! ### The classes -/

lemma toLower_of_isDigit {c : UInt8} (h : isDigit c = true) : toLower c = c := by
  simp only [isDigit, toLower, Bool.and_eq_true, decide_eq_true_eq] at h ⊢
  grind

lemma isAlnum_toLower {c : UInt8} (h : isAlnum c = true) : isAlnum (toLower c) = true := by
  simp only [isAlnum, isAlpha, isDigit, toLower, Bool.or_eq_true, Bool.and_eq_true,
    decide_eq_true_eq] at h ⊢
  grind

lemma isAlnum_of_isXDigit {c : UInt8} (h : isXDigit c = true) : isAlnum c = true := by
  simp only [isXDigit, isAlnum, isAlpha, isDigit, Bool.or_eq_true, Bool.and_eq_true,
    decide_eq_true_eq] at h ⊢
  grind

lemma hostChar_of_isAlnum {c : UInt8} (h : isAlnum c = true) : hostChar c = true := by
  rw [hostChar, h, Bool.true_or]

lemma hostCls_digit : HostCls isDigit := by
  intro c hc
  have halnum : isAlnum c = true := by rw [isAlnum, hc, Bool.or_true]
  exact ⟨hostChar_of_isAlnum halnum, by rw [toLower_of_isDigit hc]; exact hc⟩

lemma hostCls_xdigit : HostCls isXDigit :=
  fun c hc => ⟨hostChar_of_isAlnum (isAlnum_of_isXDigit hc), (isXDigit_toLower c).trans hc⟩

lemma hostCls_alnum : HostCls isAlnum :=
  fun _ hc => ⟨hostChar_of_isAlnum hc, isAlnum_toLower hc⟩

lemma hostCls_range {a b : UInt8} (ha : 0x30 ≤ a) (hb : b ≤ 0x39) :
    HostCls fun c => a ≤ c && c ≤ b := by
  intro c hc
  have hc' := hc
  simp only [Bool.and_eq_true, decide_eq_true_eq] at hc'
  have hd : isDigit c = true := by
    simp only [isDigit, Bool.and_eq_true, decide_eq_true_eq]
    exact ⟨UInt8.le_trans ha hc'.1, UInt8.le_trans hc'.2 hb⟩
  refine ⟨(hostCls_digit c hd).1, ?_⟩
  rw [toLower_of_isDigit hd]
  exact hc

/-- The string has host characters only, and none in upper case. -/
def lowerHost (s : Str) : Bool := s.all fun c => hostChar c && toLower c == c

lemma of_lowerHost {s : Str} (h : lowerHost s = true) {c : UInt8} (hc : c ∈ s) :
    hostChar c = true ∧ toLower c = c := by
  have hall := List.all_eq_true.1 h c hc
  simpa using hall

lemma hostCls_alnumOr {extra : Str} (h : lowerHost extra = true) :
    HostCls fun c => isAlnum c || extra.contains c := by
  intro c hc
  simp only [Bool.or_eq_true, List.contains_iff_mem] at hc ⊢
  rcases hc with hc | hc
  · exact ⟨(hostCls_alnum c hc).1, Or.inl (hostCls_alnum c hc).2⟩
  · rw [(of_lowerHost h hc).2]
    exact ⟨(of_lowerHost h hc).1, Or.inr hc⟩

lemma allCls_word {s : Str} (h : lowerHost s = true) : (word s).AllCls HostCls := by
  refine Regex.allCls_cat fun r hr => ?_
  obtain ⟨c, hc, rfl⟩ := List.mem_map.1 hr
  intro d hd
  rw [beq_iff_eq] at hd
  subst hd
  rw [(of_lowerHost h hc).2]
  exact ⟨(of_lowerHost h hc).1, beq_self_eq_true d⟩

lemma allCls_reHost : reHost.AllCls HostCls :=
  ⟨hostCls_alnum, ⟨hostCls_alnumOr rfl, hostCls_alnumOr rfl⟩, trivial⟩

lemma allCls_reIpvfut : reIpvfut.AllCls HostCls :=
  ⟨allCls_word rfl, hostCls_xdigit, allCls_word rfl, hostCls_alnumOr rfl⟩

lemma allCls_decoct : decoct.AllCls HostCls := by
  refine ⟨⟨?_, ?_, hostCls_digit⟩, ⟨allCls_word rfl, ?_, ?_⟩, allCls_word rfl, ?_⟩
  · exact ⟨hostCls_range (by decide) (by decide), trivial⟩
  · exact ⟨hostCls_digit, trivial⟩
  · exact hostCls_range (by decide) (by decide)
  · exact hostCls_range (by decide) (by decide)
  · exact hostCls_range (by decide) (by decide)

lemma allCls_reIpv4 : reIpv4.AllCls HostCls := by
  have hdot : (word (lit ".")).AllCls HostCls := allCls_word rfl
  exact ⟨allCls_decoct, hdot, allCls_decoct, hdot, allCls_decoct, hdot, allCls_decoct⟩

lemma allCls_h16 : h16.AllCls HostCls := by
  have hx : xdigit.AllCls HostCls := hostCls_xdigit
  exact ⟨hx, Regex.allCls_upTo hx 3⟩

lemma allCls_h16Colon : h16Colon.AllCls HostCls := ⟨allCls_h16, allCls_word rfl⟩

lemma allCls_ls32 : ls32.AllCls HostCls := ⟨⟨allCls_h16Colon, allCls_h16⟩, allCls_reIpv4⟩

lemma allCls_ipv6Front (n : ℕ) : (ipv6Front n).AllCls HostCls :=
  ⟨Regex.allCls_opt ⟨Regex.allCls_upTo allCls_h16Colon n, allCls_h16⟩, allCls_word rfl⟩

lemma allCls_reIpv6 : reIpv6.AllCls HostCls := by
  have hrep := Regex.allCls_rep allCls_h16Colon
  exact ⟨⟨hrep 6, allCls_ls32⟩, ⟨allCls_word rfl, hrep 5, allCls_ls32⟩,
    ⟨allCls_ipv6Front 0, hrep 4, allCls_ls32⟩, ⟨allCls_ipv6Front 1, hrep 3, allCls_ls32⟩,
    ⟨allCls_ipv6Front 2, hrep 2, allCls_ls32⟩, ⟨allCls_ipv6Front 3, hrep 1, allCls_ls32⟩,
    ⟨allCls_ipv6Front 4, allCls_ls32⟩, ⟨allCls_ipv6Front 5, allCls_h16⟩, allCls_ipv6Front 6⟩

/-! ### What they match -/

/-- One of the four expressions, with the property of its classes. -/
lemma HostMatches.exists_regex {w : Str} (h : HostMatches w) :
    ∃ r : Regex UInt8, r.AllCls HostCls ∧ r.Matches w ∧ ∀ w', r.Matches w' → HostMatches w' := by
  rcases h with h | h | h | h
  · exact ⟨reHost, allCls_reHost, h, fun _ => Or.inl⟩
  · exact ⟨reIpvfut, allCls_reIpvfut, h, fun _ hw => Or.inr (Or.inl hw)⟩
  · exact ⟨reIpv6, allCls_reIpv6, h, fun _ hw => Or.inr (Or.inr (Or.inl hw))⟩
  · exact ⟨reIpv4, allCls_reIpv4, h, fun _ hw => Or.inr (Or.inr (Or.inr hw))⟩

lemma HostMatches.hostChar {w : Str} (h : HostMatches w) : ∀ c ∈ w, hostChar c = true := by
  obtain ⟨r, hr, hw, -⟩ := h.exists_regex
  exact hw.forall_mem (hr.mono fun p hp c hc => (hp c hc).1)

lemma HostMatches.lower {w w' : Str} (h : HostMatches w) (hw' : List.Forall₂ LowerRel w w') :
    HostMatches w' := by
  obtain ⟨r, hr, hw, hback⟩ := h.exists_regex
  refine hback w' (hw.forall₂ (R := LowerRel) (hr.mono fun p hp c d hcd hc => ?_) hw')
  rcases hcd with rfl | rfl
  · exact hc
  · exact (hp c hc).2

/-! ### Valid hosts -/

/-- The character a token of a valid host stands for. -/
def decoded : Tok → UInt8
  | .raw c => c
  | .esc a b => x2digitsToNum a b

/-- The tokens of a valid host are host characters and escapes of safe characters. -/
lemma tokens_of_validHost {h : Str} (hv : validHost h = true) :
    ∀ t ∈ tokens h, (∃ c, t = .raw c ∧ hostChar c = true) ∨
      ∃ a b, t = .esc a b ∧ isXDigit a = true ∧ isXDigit b = true ∧
        urlCharSafe (x2digitsToNum a b) = true := by
  intro t ht
  rcases (validHost_iff h).1 hv with rfl | hm
  · simp at ht
  have hchar := hm.hostChar
  rw [unescapeSafe, unescapeIf_eq_flatMap] at hchar
  cases t with
  | raw c => exact Or.inl ⟨c, rfl, hchar c (List.mem_flatMap.2 ⟨_, ht, by simp [Tok.unescaped]⟩)⟩
  | esc a b =>
      have hab : (Tok.esc a b).Closed := (tokens_closed_or h _ ht).resolve_left (by simp)
      refine Or.inr ⟨a, b, rfl, hab.1, hab.2, ?_⟩
      by_contra hsafe
      -- the escape would be left in place, and no class contains `%`
      have hpct : hostChar Byte.percent = true :=
        hchar _ (List.mem_flatMap.2 ⟨_, ht, by simp [Tok.unescaped, hsafe]⟩)
      exact absurd hpct (by decide)

lemma closed_of_validHost {h : Str} (hv : validHost h = true) : Closed h := by
  intro t ht
  rcases tokens_of_validHost hv t ht with ⟨c, rfl, hc⟩ | ⟨a, b, rfl, ha, hb, -⟩
  · rintro rfl
    exact absurd hc (by decide)
  · exact ⟨ha, hb⟩

/-- A valid host contains no delimiter. -/
lemma not_mem_of_validHost {h : Str} (hv : validHost h = true) {d : UInt8}
    (hd : hostChar d = false) (hne : d ≠ Byte.percent) : d ∉ h := by
  have hx : isXDigit d = false := by
    by_contra hx
    have hd' := (hostCls_xdigit d (by simpa using hx)).1
    rw [hd] at hd'
    exact absurd hd' (by simp)
  rw [← raw_mem_tokens ⟨hne, hx⟩]
  intro hmem
  rcases tokens_of_validHost hv _ hmem with ⟨c, hc, hchar⟩ | ⟨a, b, hab, -⟩
  · rw [Tok.raw.injEq] at hc
    rw [← hc, hd] at hchar
    exact absurd hchar (by simp)
  · exact absurd hab (by simp)

lemma unescapeSafe_of_validHost {h : Str} (hv : validHost h = true) :
    unescapeSafe h = (tokens h).map decoded := by
  rw [unescapeSafe, unescapeIf_eq_flatMap, List.map_eq_flatMap]
  refine List.flatMap_congr fun t ht => ?_
  rcases tokens_of_validHost hv t ht with ⟨c, rfl, -⟩ | ⟨a, b, rfl, -, -, hsafe⟩
  · rfl
  · simp [Tok.unescaped, decoded, hsafe]

/-- The host after `normalize_host` and `normalize_escapes`. -/
def hostNormal (h : Str) : Str := Mycelium.normalizeEscapes (h.map toLower)

/-- Normalization lowers the plain characters and decodes all escapes. -/
lemma hostNormal_eq_map {h : Str} (hv : validHost h = true) :
    hostNormal h = (tokens h).map fun t =>
      match t with
      | .raw c => toLower c
      | .esc a b => x2digitsToNum a b := by
  have hclosed : Closed (h.map toLower) := Closed.map_toLower (closed_of_validHost hv)
  rw [hostNormal, normalizeEscapes_eq_flatMap hclosed, tokens_map_toLower, List.flatMap_map,
    List.map_eq_flatMap]
  refine List.flatMap_congr fun t ht => ?_
  rcases tokens_of_validHost hv t ht with ⟨c, rfl, -⟩ | ⟨a, b, rfl, -, -, hsafe⟩
  · rfl
  · have hx : x2digitsToNum (toLower a) (toLower b) = x2digitsToNum a b := by
      rw [x2digitsToNum, xdigitToNum_toLower, xdigitToNum_toLower, x2digitsToNum]
    simp [Tok.lower, Tok.normalize, Tok.decodeSafe, hx, hsafe, Tok.upper, Tok.text]

lemma hostMatches_hostNormal {h : Str} (hv : validHost h = true) (hne : h ≠ []) :
    HostMatches (hostNormal h) := by
  have hm : HostMatches (unescapeSafe h) := ((validHost_iff h).1 hv).resolve_left hne
  refine hm.lower ?_
  rw [unescapeSafe_of_validHost hv, hostNormal_eq_map hv, List.forall₂_map_left_iff,
    List.forall₂_map_right_iff, List.forall₂_same]
  intro t _
  cases t with
  | raw c => exact Or.inr rfl
  | esc a b => exact Or.inl rfl

lemma percent_not_mem_hostNormal {h : Str} (hv : validHost h = true) :
    Byte.percent ∉ hostNormal h := by
  by_cases hne : h = []
  · subst hne
    exact List.not_mem_nil
  · intro hmem
    exact absurd ((hostMatches_hostNormal hv hne).hostChar _ hmem) (by decide)

/-- A valid host stays valid when it is normalized. -/
lemma validHost_hostNormal {h : Str} (hv : validHost h = true) :
    validHost (hostNormal h) = true := by
  rw [validHost_iff]
  by_cases hne : h = []
  · subst hne
    exact Or.inl rfl
  · right
    have hpct := percent_not_mem_hostNormal hv
    have hid : unescapeSafe (hostNormal h) = hostNormal h := by
      simp [unescapeSafe, unescapeIf, hpct]
    rw [hid]
    exact hostMatches_hostNormal hv hne

lemma hostNormal_eq_nil_iff {h : Str} (hv : validHost h = true) : hostNormal h = [] ↔ h = [] := by
  constructor
  · intro hn
    rw [hostNormal_eq_map hv, List.map_eq_nil_iff] at hn
    rw [← text_tokens h, hn]
    rfl
  · rintro rfl
    rfl

end Url

end Mycelium
