import Mycelium.Lib.Regex

/-!
# Scanners with longest match

A scanner that a generator makes from a list of rules takes, again and again, the rule that matches
the longest piece of the text that is left, and of several such rules the first one.  Its action
changes the state, or ends the scan.  A rule may be active in some states only, which covers start
conditions and the anchor `^`.

`munch_eq` says which piece is taken without running the matcher, and `run_append` is the rule for
the first piece of a text.
-/

namespace Lib

/-! ### The longest match of an expression -/

namespace Regex

variable {α : Type*} {r : Regex α} {u v w : List α} {n : ℕ}

/-- The length of the longest piece at the start of a word that the expression matches. -/
def longest : Regex α → List α → Option ℕ
  | r, [] => if nullable r then some 0 else none
  | r, a :: w =>
      match longest (deriv a r) w with
      | some n => some (n + 1)
      | none => if nullable r then some 0 else none

lemma longest_cases (h : longest r w = some n) : n ≤ w.length ∧ Matches r (w.take n) := by
  induction w generalizing r n with
  | nil =>
      rw [longest] at h
      split_ifs at h with hr
      obtain rfl := Option.some.inj h
      exact ⟨le_rfl, (nullable_iff r).1 hr⟩
  | cons a w ih =>
      rw [longest] at h
      split at h
      · next m hm =>
          obtain rfl := Option.some.inj h
          obtain ⟨hle, hmatch⟩ := ih hm
          exact ⟨Nat.succ_le_succ hle, (matches_deriv_iff a r _).1 hmatch⟩
      · split_ifs at h with hr
        obtain rfl := Option.some.inj h
        exact ⟨Nat.zero_le _, (nullable_iff r).1 hr⟩

lemma le_longest (hu : Matches r u) : ∃ n, longest r (u ++ v) = some n ∧ u.length ≤ n := by
  induction u generalizing r with
  | nil =>
      have hr := (nullable_iff r).2 hu
      cases v with
      | nil => exact ⟨0, by simp [longest, hr], le_rfl⟩
      | cons a v =>
          cases hlong : longest (deriv a r) v with
          | none => exact ⟨0, by simp [longest, hlong, hr], le_rfl⟩
          | some n => exact ⟨n + 1, by simp [longest, hlong], Nat.zero_le _⟩
  | cons a u ih =>
      obtain ⟨n, hn, hle⟩ := ih ((matches_deriv_iff a r u).2 hu)
      exact ⟨n + 1, by simp [longest, hn], Nat.succ_le_succ hle⟩

lemma longest_le {N : ℕ} (h : longest r w = some n)
    (hmax : ∀ u, u <+: w → Matches r u → u.length ≤ N) : n ≤ N := by
  obtain ⟨hle, hmatch⟩ := longest_cases h
  simpa [hle] using hmax _ (List.take_prefix n w) hmatch

/-- A matched piece is the longest if no other is longer. -/
lemma longest_eq (hu : Matches r u)
    (hmax : ∀ u', u' <+: u ++ v → Matches r u' → u'.length ≤ u.length) :
    longest r (u ++ v) = some u.length := by
  obtain ⟨n, hn, hle⟩ := le_longest (v := v) hu
  rw [hn, le_antisymm (longest_le hn hmax) hle]

/-- There is a longest piece if the expression matches the empty word. -/
lemma exists_longest (hr : Matches r []) (w : List α) :
    ∃ u v, u ++ v = w ∧ Matches r u ∧ ∀ u', u' <+: w → Matches r u' → u'.length ≤ u.length := by
  obtain ⟨n, hn, -⟩ := le_longest (v := w) hr
  rw [List.nil_append] at hn
  obtain ⟨hle, hmatch⟩ := longest_cases hn
  refine ⟨w.take n, w.drop n, List.take_append_drop n w, hmatch, ?_⟩
  rintro u' ⟨v', rfl⟩ hu'
  obtain ⟨m, hm, hum⟩ := le_longest (v := v') hu'
  obtain rfl := Option.some.inj (hm.symm.trans hn)
  rwa [List.length_take_of_le hle]

end Regex

/-! ### The choice of a rule -/

/-- A rule for the pieces that an expression matches, with the conditions in which it is active. -/
structure ScanRule (α γ β : Type) where
  active : γ → Bool
  re : Regex α
  label : β

variable {α γ β : Type} {c : γ} {u v w : List α} {rules : List (ScanRule α γ β)}

/-- The longest match of a rule, if it is active. -/
def ScanRule.candidate (r : ScanRule α γ β) (c : γ) (w : List α) : Option ℕ :=
  if r.active c then r.re.longest w else none

/-- The rule is active and matches the piece. -/
def ScanRule.takes (c : γ) (u : List α) (r : ScanRule α γ β) : Bool :=
  r.active c && r.re.accepts u

/-- The length of the piece that is taken and the label of its rule. -/
def munch (c : γ) (w : List α) : List (ScanRule α γ β) → Option (ℕ × β)
  | [] => none
  | r :: rules =>
      match r.candidate c w, munch c w rules with
      | some n, some (m, b) => if m ≤ n then some (n, r.label) else some (m, b)
      | some n, none => some (n, r.label)
      | none, other => other

/-- No rule matches a longer piece at the start of the text. -/
def AtMost (c : γ) (w : List α) (N : ℕ) (rules : List (ScanRule α γ β)) : Prop :=
  ∀ r ∈ rules, r.active c = true → ∀ u, u <+: w → r.re.Matches u → u.length ≤ N

lemma atMost_cons {r : ScanRule α γ β} {N : ℕ} : AtMost c w N (r :: rules) ↔
    (r.active c = true → ∀ u, u <+: w → r.re.Matches u → u.length ≤ N) ∧ AtMost c w N rules :=
  List.forall_mem_cons

lemma candidate_le {r : ScanRule α γ β} {N n : ℕ} (h : AtMost c w N (r :: rules))
    (hn : r.candidate c w = some n) : n ≤ N := by
  rw [ScanRule.candidate] at hn
  split_ifs at hn with hactive
  exact Regex.longest_le hn ((atMost_cons.1 h).1 hactive)

lemma munch_le {N n : ℕ} {b : β} (h : AtMost c w N rules)
    (hn : munch c w rules = some (n, b)) : n ≤ N := by
  induction rules generalizing n b with
  | nil => exact absurd hn (by simp [munch])
  | cons r rules ih =>
      rw [munch] at hn
      split at hn
      · next k m b' hk hm =>
          split_ifs at hn
          · obtain ⟨rfl, -⟩ := Prod.mk.inj (Option.some.inj hn)
            exact candidate_le h hk
          · obtain ⟨rfl, -⟩ := Prod.mk.inj (Option.some.inj hn)
            exact ih (atMost_cons.1 h).2 hm
      · next k hk hm =>
          obtain ⟨rfl, -⟩ := Prod.mk.inj (Option.some.inj hn)
          exact candidate_le h hk
      · exact ih (atMost_cons.1 h).2 hn

/-- A piece is taken if no rule matches a longer one; its rule is the first that matches it. -/
theorem munch_eq {r : ScanRule α γ β} (h : AtMost c (u ++ v) u.length rules)
    (hfind : rules.find? (ScanRule.takes c u) = some r) :
    munch c (u ++ v) rules = some (u.length, r.label) := by
  induction rules with
  | nil => exact absurd hfind (by simp)
  | cons r' rules ih =>
      obtain ⟨hr', hrules⟩ := atMost_cons.1 h
      rw [munch]
      by_cases hfirst : ScanRule.takes c u r' = true
      · rw [List.find?_cons_of_pos hfirst] at hfind
        obtain rfl := Option.some.inj hfind
        obtain ⟨hactive, haccepts⟩ := Bool.and_eq_true_iff.1 hfirst
        have hlong : r'.candidate c (u ++ v) = some u.length := by
          rw [ScanRule.candidate, if_pos hactive]
          exact Regex.longest_eq ((Regex.accepts_iff _ _).1 haccepts) (hr' hactive)
        rw [hlong]
        cases hm : munch c (u ++ v) rules with
        | none => rfl
        | some x => exact if_pos (munch_le hrules hm)
      · rw [List.find?_cons_of_neg hfirst] at hfind
        rw [ih hrules hfind]
        cases hk : r'.candidate c (u ++ v) with
        | none => rfl
        | some k =>
            -- the earlier rule does not match the piece, so that its longest match is shorter
            have hne : k ≠ u.length := by
              rintro rfl
              rw [ScanRule.candidate] at hk
              split_ifs at hk with hactive
              have hmatch := (Regex.longest_cases hk).2
              rw [List.take_left] at hmatch
              exact hfirst (Bool.and_eq_true_iff.2 ⟨hactive, (Regex.accepts_iff _ _).2 hmatch⟩)
            have hle := candidate_le h hk
            exact if_neg (by omega)

/-! ### The scan -/

/-- A scanner over the states `σ`; an action that ends the scan throws the result. -/
structure Scanner (α γ β σ ρ : Type) where
  rules : List (ScanRule α γ β)
  /-- What decides which rules are active. -/
  cond : σ → γ
  act : σ → β → List α → Except ρ σ
  /-- What is done with a letter that no rule matches. -/
  echo : σ → α → σ

namespace Scanner

variable {σ ρ : Type} {S : Scanner α γ β σ ρ} {s : σ}

/-- The scan of a text in a number of steps. -/
def scan (S : Scanner α γ β σ ρ) : ℕ → σ → List α → Except ρ σ
  | 0, s, _ => .ok s
  | _ + 1, s, [] => .ok s
  | fuel + 1, s, a :: w =>
      match munch (S.cond s) (a :: w) S.rules with
      | some (n + 1, b) => S.act s b (a :: w.take n) >>= fun t => S.scan fuel t (w.drop n)
      | _ => S.scan fuel (S.echo s a) w

/-- The scan of a text to its end; every step takes a letter at least. -/
def run (S : Scanner α γ β σ ρ) (s : σ) (w : List α) : Except ρ σ := S.scan w.length s w

lemma scan_nil (fuel : ℕ) (s : σ) : S.scan fuel s [] = .ok s := by
  cases fuel <;> rfl

lemma scan_eq_run {fuel : ℕ} {w : List α} (h : w.length ≤ fuel) (s : σ) :
    S.scan fuel s w = S.run s w := by
  -- any two numbers of steps that suffice give the same
  suffices hall : ∀ m, w.length ≤ m → S.scan fuel s w = S.scan m s w from hall _ le_rfl
  induction fuel generalizing s w with
  | zero =>
      intro m _
      obtain rfl := List.length_eq_zero_iff.1 (Nat.le_zero.1 h)
      rw [scan_nil, scan_nil]
  | succ fuel ih =>
      intro m hm
      cases w with
      | nil => rw [scan_nil, scan_nil]
      | cons a w =>
          cases m with
          | zero => exact absurd hm (by simp)
          | succ m =>
              rw [List.length_cons, Nat.succ_le_succ_iff] at h hm
              have hdrop : ∀ n, (w.drop n).length ≤ w.length := fun n => by simp
              simp only [scan]
              split
              · next n b _ =>
                  congr 1
                  funext t
                  exact ih ((hdrop n).trans h) t m ((hdrop n).trans hm)
              · exact ih h _ m hm

/-- The first step of a scan, for a piece that meets the conditions of `munch_eq`. -/
theorem run_append {r : ScanRule α γ β} (hu : u ≠ [])
    (h : AtMost (S.cond s) (u ++ v) u.length S.rules)
    (hfind : S.rules.find? (ScanRule.takes (S.cond s) u) = some r) :
    S.run s (u ++ v) = S.act s r.label u >>= fun t => S.run t v := by
  have hmunch := munch_eq h hfind
  cases u with
  | nil => exact absurd rfl hu
  | cons a u =>
      rw [List.cons_append, List.length_cons] at hmunch
      simp only [run, List.cons_append, List.length_cons, scan, hmunch, List.take_left,
        List.drop_left]
      congr 1
      funext t
      exact scan_eq_run (by simp) t

end Scanner

end Lib
