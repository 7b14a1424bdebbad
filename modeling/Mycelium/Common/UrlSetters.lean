import Mycelium.Lib.Machine
import Mycelium.Common.UrlRoundTrip

/-!
# Sequences of setter calls

The setters of `Url` can be called in any order.  Each of them escapes or checks what it stores, so
that the components of a URL never contain a delimiter that would end them.  The path is made
absolute when it is set on a URL with an authority, and not when the authority comes later: the one
way to a URL that is not well formed is a relative path before the first call that sets the
authority.
-/

namespace Mycelium

open Lib

namespace Url

/-- A call of a setter. -/
inductive Setter where
  | scheme (s : Str)
  | authority (s : Str)
  | userinfo (s : Str)
  | host (s : Str)
  | port (s : Str)
  | path (s : Str)
  | query (s : Str)
  | fragment (s : Str)
  | clearQuery
  | clearFragment
deriving DecidableEq

namespace Setter

def call (u : Url) : Setter → Except Exn Url
  | scheme s => u.setScheme s
  | authority s => u.setAuthority s
  | userinfo s => .ok (u.setUserinfo s)
  | host s => u.setHost s
  | port s => u.setPort s
  | path s => .ok (u.setPath s)
  | query s => .ok (u.setQuery s)
  | fragment s => .ok (u.setFragment s)
  | clearQuery => .ok u.clearQuery
  | clearFragment => .ok u.clearFragment

/-- The calls that set the flag for an authority. -/
def setsAuthority : Setter → Bool
  | scheme _ | authority _ | host _ => true
  | _ => false

def isPath : Setter → Bool
  | path _ => true
  | _ => false

end Setter

/-- A number of calls on an empty URL, all of which succeed. -/
def call (calls : List Setter) : Except Exn Url := calls.foldlM Setter.call {}

/-! ### The components -/

/-- The conditions of `syntax_ok` on single components. -/
structure Sound (u : Url) : Prop where
  scheme : ∀ c ∈ u.scheme, isSchemeDelim c = false
  host : ∀ c ∈ u.host, isAuthorityDelim c = false
  valid : validHost u.host = true
  path : ∀ c ∈ u.path.get, isPathDelim c = false
  query : ∀ c ∈ u.query, c ≠ Byte.hash

/-- What is left of `syntax_ok` is the condition on the authority and the path. -/
lemma Sound.syntaxOk_iff {u : Url} (h : Sound u) :
    u.syntaxOk = true ↔
      (u.hasAuthority = true → u.path.empty = true ∨ u.path.slashBegin = true) := by
  have hscheme : u.scheme.any isSchemeDelim = false := by simpa using h.scheme
  have hhost : u.host.any isAuthorityDelim = false := by simpa using h.host
  have hpath : u.path.get.any isPathDelim = false := by simpa using h.path
  have hquery : u.query.any (· == Byte.hash) = false := by simpa using h.query
  cases hauth : u.hasAuthority <;>
    simp [syntaxOk, hauth, hscheme, hhost, h.valid, hpath, hquery]

/-- An authority that is accepted changes the authority only. -/
lemma setAuthority_frame {u v : Url} {s : Str} (h : u.setAuthority s = .ok v) :
    v.scheme = u.scheme ∧ v.path = u.path ∧ v.query = u.query ∧ v.hasAuthority = true ∧
      ∃ a : Authority, a.WF ∧ v.host = a.host := by
  rw [setAuthority] at h
  split at h
  · obtain ⟨a, hwf, -, rfl, -⟩ := setHostPort_ok h
    exact ⟨rfl, rfl, rfl, rfl, a, hwf, rfl⟩
  · split at h
    · exact absurd h (by simp)
    · obtain ⟨a, hwf, -, rfl, -⟩ := setHostPort_ok h
      exact ⟨rfl, rfl, rfl, rfl, a, hwf, rfl⟩

lemma setPort_frame {u v : Url} {s : Str} (h : u.setPort s = .ok v) :
    ∃ x, v = { u with port := x } := by
  by_cases hs : s = []
  · rw [setPort, hs, List.isEmpty_nil, if_pos rfl] at h
    exact ⟨[], (Except.ok.inj h).symm⟩
  · exact ⟨s, (setPort_ok hs h).2.2.2⟩

/-- Every setter keeps the components free of delimiters. -/
lemma Sound.call {u v : Url} {c : Setter} (h : Sound u) (hc : c.call u = .ok v) : Sound v := by
  cases c with
  | scheme s =>
      obtain ⟨hre, rfl⟩ := setScheme_ok hc
      have hlow := not_schemeDelim_of_reScheme (reScheme_map_toLower hre)
      exact { h with scheme := fun c hc => (hlow c hc).1 }
  | authority s =>
      obtain ⟨hs, hp, hq, -, a, hwf, ha⟩ := setAuthority_frame hc
      exact ⟨hs ▸ h.scheme, ha ▸ not_authorityDelim_of_clean hwf.host_clean, ha ▸ hwf.host_valid,
        hp ▸ h.path, hq ▸ h.query⟩
  | host s =>
      obtain ⟨hval, rfl⟩ := setHost_ok hc
      have hclean := clean_escape percent_auth s
      exact { h with host := not_authorityDelim_of_clean hclean, valid := hval }
  | port s =>
      obtain ⟨x, rfl⟩ := setPort_frame hc
      exact { h with }
  | path s =>
      obtain rfl := Except.ok.inj hc
      refine { h with path := Parts.not_pathDelim_get (clean_escape percent_path s) ?_ }
      rw [setPath]
      split <;> rfl
  | query s =>
      obtain rfl := Except.ok.inj hc
      exact { h with query := ne_hash_of_clean (clean_escape percent_query s) }
  | clearQuery =>
      obtain rfl := Except.ok.inj hc
      exact { h with query := fun _ hc => absurd hc List.not_mem_nil }
  | userinfo s | fragment s | clearFragment =>
      obtain rfl := Except.ok.inj hc
      exact { h with }

/-! ### The authority and the path -/

/-- A text of a path that is not empty and does not begin with a slash. -/
def Relative (s : Str) : Prop := s ≠ [] ∧ s.head? ≠ some Byte.slash

/-- The last call that set the path set a relative one, with no authority before it. -/
def SetsRelative (calls : List Setter) : Prop :=
  ∃ l s r, calls = l ++ .path s :: r ∧ (∀ c ∈ l, c.setsAuthority = false) ∧
    (∀ c ∈ r, c.isPath = false) ∧ Relative s

lemma setsRelative_append {calls : List Setter} {c : Setter} :
    SetsRelative (calls ++ [c]) ↔ c.isPath = false ∧ SetsRelative calls ∨
      ∃ s, c = .path s ∧ (∀ c ∈ calls, c.setsAuthority = false) ∧ Relative s := by
  constructor
  · rintro ⟨l, s, r, heq, hl, hr, hs⟩
    rcases append_singleton_eq_append_cons heq with ⟨rfl, rfl, rfl⟩ | ⟨r, rfl, rfl⟩
    · exact Or.inr ⟨s, rfl, hl, hs⟩
    · exact Or.inl ⟨hr c (by simp), l, s, r, rfl, hl, fun d hd => hr d (by simp [hd]), hs⟩
  · rintro (⟨hc, l, s, r, rfl, hl, hr, hs⟩ | ⟨s, rfl, hl, hs⟩)
    · refine ⟨l, s, r ++ [c], by simp, hl, fun d hd => ?_, hs⟩
      rcases List.mem_append.1 hd with hd | hd
      · exact hr d hd
      · rwa [List.mem_singleton.1 hd]
    · exact ⟨calls, s, [], rfl, hl, by simp, hs⟩

/-- A path that is not empty and not absolute. -/
def HasRelative (u : Url) : Prop := u.path.empty = false ∧ u.path.slashBegin = false

lemma hasRelative_setPath {u : Url} {s : Str} :
    HasRelative (u.setPath s) ↔ u.hasAuthority = false ∧ Relative s := by
  cases hauth : u.hasAuthority with
  | true => simp [HasRelative, setPath, hauth, Path.setAbsolute]
  | false =>
      rw [HasRelative, setPath, hauth, if_neg Bool.false_ne_true, Path.assign_relative_iff]
      cases s with
      | nil => simp [Relative, escape]
      | cons c s =>
          obtain ⟨t, ht⟩ := escape_cons urlCharPath c s
          have hslash : urlCharTest Byte.slash urlCharPath = false := by decide
          have hpercent : Byte.percent ≠ Byte.slash := by decide
          by_cases hc : urlCharTest c urlCharPath = true
          · have hne : c ≠ Byte.slash := by
              rintro rfl
              exact absurd hc (by simp [hslash])
            simp [ht, Relative, hc, hne, hpercent]
          · simp [ht, Relative, hc]

/-- The flag for the authority and the path after some calls. -/
structure Inv (calls : List Setter) (u : Url) : Prop where
  sound : Sound u
  authority : u.hasAuthority = true ↔ ∃ c ∈ calls, c.setsAuthority = true
  relative : HasRelative u ↔ SetsRelative calls

lemma inv_nil : Inv [] {} where
  sound := ⟨by simp, by simp, rfl, by simp [Path.get, Path.empty], by simp⟩
  authority := by simp
  relative := by simp [HasRelative, SetsRelative, Path.empty]

/-- A call sets the flag, or leaves it. -/
lemma Setter.hasAuthority_call {u v : Url} {c : Setter} (h : c.call u = .ok v) :
    v.hasAuthority = (u.hasAuthority || c.setsAuthority) := by
  cases c with
  | scheme s =>
      obtain ⟨-, rfl⟩ := setScheme_ok h
      simp [setsAuthority]
  | authority s =>
      obtain ⟨-, -, -, hv, -⟩ := setAuthority_frame h
      simp [hv, setsAuthority]
  | host s =>
      obtain ⟨-, rfl⟩ := setHost_ok h
      simp [setsAuthority]
  | port s =>
      obtain ⟨x, rfl⟩ := setPort_frame h
      simp [setsAuthority]
  | userinfo s | path s | query s | fragment s | clearQuery | clearFragment =>
      obtain rfl := Except.ok.inj h
      exact (Bool.or_false _).symm

lemma Setter.path_call {u v : Url} {c : Setter} (h : c.call u = .ok v) (hc : c.isPath = false) :
    v.path = u.path := by
  cases c with
  | scheme s =>
      obtain ⟨-, rfl⟩ := setScheme_ok h
      rfl
  | authority s => exact (setAuthority_frame h).2.1
  | host s =>
      obtain ⟨-, rfl⟩ := setHost_ok h
      rfl
  | port s =>
      obtain ⟨x, rfl⟩ := setPort_frame h
      rfl
  | path s => exact absurd hc (by simp [isPath])
  | userinfo s | query s | fragment s | clearQuery | clearFragment =>
      obtain rfl := Except.ok.inj h
      rfl

lemma Inv.call {calls : List Setter} {u v : Url} {c : Setter} (h : Inv calls u)
    (hc : c.call u = .ok v) : Inv (calls ++ [c]) v where
  sound := h.sound.call hc
  authority := by
    rw [Setter.hasAuthority_call hc, Bool.or_eq_true, h.authority]
    simp [or_and_right, exists_or]
  relative := by
    rw [setsRelative_append, ← h.relative]
    cases hp : c.isPath with
    | false =>
        have hne : ∀ s, c ≠ .path s := by
          rintro s rfl
          exact absurd hp (by simp [Setter.isPath])
        simp [HasRelative, Setter.path_call hc hp, hne]
    | true =>
        obtain ⟨s, rfl⟩ : ∃ s, c = .path s := by
          cases c with
          | path s => exact ⟨s, rfl⟩
          | _ => simp [Setter.isPath] at hp
        obtain rfl := Except.ok.inj hc
        have hno : u.hasAuthority = false ↔ ∀ c ∈ calls, c.setsAuthority = false := by
          simpa using h.authority.not
        simp [hasRelative_setPath, hno]

lemma inv_call {calls : List Setter} {u : Url} (h : call calls = .ok u) : Inv calls u := by
  -- the calls made so far and those to come are all of them
  obtain ⟨done, hdone, hinv⟩ := foldlM_invariant
    (I := fun rest u => ∃ done, done ++ rest = calls ∧ Inv done u)
    (fun c rest u v ⟨done, hdone, hinv⟩ hc => ⟨done ++ [c], by simpa using hdone, hinv.call hc⟩)
    h ⟨[], rfl, inv_nil⟩
  rwa [← hdone, List.append_nil]

/-- After any successful calls on an empty URL, `syntax_ok` holds unless the path is a relative one
that was set before the first call that sets the authority. -/
theorem syntaxOk_call_iff {calls : List Setter} {u : Url} (h : call calls = .ok u) :
    u.syntaxOk = true ↔ ¬ (SetsRelative calls ∧ ∃ c ∈ calls, c.setsAuthority = true) := by
  have hinv := inv_call h
  rw [hinv.sound.syntaxOk_iff, ← hinv.authority, ← hinv.relative, HasRelative]
  cases u.hasAuthority <;> cases u.path.empty <;> cases u.path.slashBegin <;> simp

/-- A host, then a relative path. -/
theorem syntaxOk_call_iff_host_path :
    ∃ u, call [.host (lit "h"), .path (lit "a")] = .ok u ∧ u.syntaxOk = true := by
  have hcall : call [.host (lit "h"), .path (lit "a")] = .ok
      { host := lit "h", hasAuthority := true
        path := { segmt := [⟨lit "a", by decide⟩], slashBegin := true } } := by decide
  refine ⟨_, hcall, (syntaxOk_call_iff hcall).2 ?_⟩
  rintro ⟨⟨l, s, r, heq, hl, -⟩, -⟩
  cases l with
  | nil => simp at heq
  | cons c l =>
      have hc := hl c List.mem_cons_self
      rw [List.cons_append] at heq
      rw [← (List.cons.inj heq).1] at hc
      exact absurd hc (by decide)

/-- A relative path, then a host: the two run together in the text `//ha`. -/
theorem not_syntaxOk_path_host :
    ∃ u, call [.path (lit "a"), .host (lit "h")] = .ok u ∧ u.syntaxOk = false := by
  refine ⟨{ host := lit "h", hasAuthority := true
            path := { segmt := [⟨lit "a", by decide⟩] } }, ?_, ?_⟩ <;> decide

end Url

end Mycelium
