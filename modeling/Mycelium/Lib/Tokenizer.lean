import Mycelium.Lib.Scanner

/-!
# Tokenizers

A tokenizer is a scanner whose rules may have a trailing context: a number of letters at the end of
what a rule matches that count for the choice of the rule and are then put back.  A step may take no
letter at all, so that the end of a run is seen from a measure that every step makes smaller.

`munch_cases` says what is known of the piece that is taken.  `Kept` are the relations of states
that the actions keep, and that therefore hold along two runs over one text.  `Reaches.transfer`
exchanges the rest of a text behind a point that the run comes to.
-/

namespace Lib

variable {α γ β : Type} {c : γ} {u v w x z z' : List α} {rules : List (ScanRule α γ β)}

/-! ### What is taken -/

lemma ScanRule.candidate_cases {r : ScanRule α γ β} {n : ℕ} (h : r.candidate c w = some n) :
    n ≤ w.length ∧ ScanRule.takes c (w.take n) r = true ∧
      ∀ u, u <+: w → r.re.Matches u → u.length ≤ n := by
  rw [candidate] at h
  split_ifs at h with hactive
  obtain ⟨hle, hmatch⟩ := Regex.longest_cases h
  refine ⟨hle, ?_, ?_⟩
  · rw [takes, hactive, Bool.true_and, Regex.accepts_iff]
    exact hmatch
  · rintro u ⟨v, rfl⟩ hu
    obtain ⟨m, hm, hum⟩ := Regex.le_longest (v := v) hu
    rwa [Option.some.inj (hm.symm.trans h)] at hum

lemma ScanRule.not_matches_of_candidate_eq_none {r : ScanRule α γ β} (h : r.candidate c w = none)
    (hactive : r.active c = true) (hu : u <+: w) : ¬r.re.Matches u := by
  intro hmatch
  obtain ⟨v, rfl⟩ := hu
  obtain ⟨n, hn, -⟩ := Regex.le_longest (v := v) hmatch
  rw [candidate, if_pos hactive, hn] at h
  exact absurd h (by simp)

lemma not_matches_of_munch_eq_none (h : munch c w rules = none) :
    ∀ r ∈ rules, r.active c = true → ∀ u, u <+: w → ¬r.re.Matches u := by
  induction rules with
  | nil => simp
  | cons r rules ih =>
      rw [munch] at h
      split at h
      · next m b hm =>
          split_ifs at h
      · exact absurd h (by simp)
      · next _ hnone =>
          rw [List.forall_mem_cons]
          exact ⟨fun hactive u hu => ScanRule.not_matches_of_candidate_eq_none hnone hactive hu,
            ih h⟩

/-- The piece that is taken is a longest one, and its rule is the first that matches it. -/
theorem munch_cases {n : ℕ} {b : β} (h : munch c w rules = some (n, b)) :
    n ≤ w.length ∧ AtMost c w n rules ∧
      ∃ r, rules.find? (ScanRule.takes c (w.take n)) = some r ∧ r.label = b := by
  induction rules generalizing n b with
  | nil => exact absurd h (by simp [munch])
  | cons r rules ih =>
      rw [munch] at h
      split at h
      · next k m b' hk hm =>
          obtain ⟨hkle, hktakes, hkmax⟩ := r.candidate_cases hk
          obtain ⟨hmle, hmmost, r', hfind, hlabel⟩ := ih hm
          split_ifs at h with hle
          · obtain ⟨rfl, rfl⟩ := Prod.mk.inj (Option.some.inj h)
            refine ⟨hkle, atMost_cons.2 ⟨fun _ => hkmax, ?_⟩, r, List.find?_cons_of_pos hktakes,
              rfl⟩
            exact fun r hr hactive u hu hmatch => (hmmost r hr hactive u hu hmatch).trans hle
          · obtain ⟨rfl, rfl⟩ := Prod.mk.inj (Option.some.inj h)
            have hlt : k < m := Nat.lt_of_not_le hle
            refine ⟨hmle, atMost_cons.2 ⟨fun _ u hu hmatch => ?_, hmmost⟩, r', ?_, hlabel⟩
            · exact (hkmax u hu hmatch).trans hlt.le
            · rw [List.find?_cons_of_neg, hfind]
              -- the first rule would match a longer piece than its longest
              intro htakes
              have hmatch := (Regex.accepts_iff _ _).1 (Bool.and_eq_true_iff.1 htakes).2
              have := hkmax _ (List.take_prefix m w) hmatch
              rw [List.length_take_of_le hmle] at this
              omega
      · next k hk hm =>
          obtain ⟨rfl, rfl⟩ := Prod.mk.inj (Option.some.inj h)
          obtain ⟨hkle, hktakes, hkmax⟩ := r.candidate_cases hk
          refine ⟨hkle, atMost_cons.2 ⟨fun _ => hkmax, ?_⟩, r, List.find?_cons_of_pos hktakes, rfl⟩
          exact fun r hr hactive u hu hmatch =>
            absurd hmatch (not_matches_of_munch_eq_none hm r hr hactive u hu)
      · next _ hnone =>
          obtain ⟨hle, hmost, r', hfind, hlabel⟩ := ih h
          have hno : ∀ u, u <+: w → r.active c = true → ¬r.re.Matches u := fun u hu hactive =>
            ScanRule.not_matches_of_candidate_eq_none hnone hactive hu
          refine ⟨hle, atMost_cons.2 ⟨fun hactive u hu hmatch => absurd hmatch (hno u hu hactive),
            hmost⟩, r', ?_, hlabel⟩
          rw [List.find?_cons_of_neg, hfind]
          intro htakes
          obtain ⟨hactive, haccepts⟩ := Bool.and_eq_true_iff.1 htakes
          exact hno _ (List.take_prefix n w) hactive ((Regex.accepts_iff _ _).1 haccepts)

/-- A rule matches a piece that reaches from `x` into `z`. -/
def Beyond (c : γ) (x z : List α) (rules : List (ScanRule α γ β)) : Prop :=
  ∃ r ∈ rules, r.active c = true ∧ ∃ u, u ≠ [] ∧ u <+: z ∧ r.re.Matches (x ++ u)

lemma not_beyond_of_atMost (h : AtMost c (x ++ z) x.length rules) : ¬Beyond c x z rules := by
  rintro ⟨r, hr, hactive, u, hne, hu, hmatch⟩
  have hle := h r hr hactive (x ++ u) ((List.prefix_append_right_inj x).2 hu) hmatch
  rw [List.length_append] at hle
  exact hne (List.length_eq_zero_iff.1 (by omega))

/-- What follows the piece that is taken can be exchanged if no rule then reaches into it that did
not before. -/
theorem munch_append_congr {n : ℕ} {b : β} (h : munch c (x ++ z) rules = some (n, b))
    (hn : n ≤ x.length) (hbeyond : Beyond c x z' rules → Beyond c x z rules) :
    munch c (x ++ z') rules = some (n, b) := by
  obtain ⟨-, hmost, r, hfind, rfl⟩ := munch_cases h
  have hlen : (x.take n).length = n := List.length_take_of_le hn
  have hnot : ¬Beyond c x z rules :=
    not_beyond_of_atMost fun r hr hactive u hu hmatch => (hmost r hr hactive u hu hmatch).trans hn
  have hmost' : AtMost c (x ++ z') n rules := by
    intro r hr hactive u hu hmatch
    rcases List.prefix_or_prefix_of_prefix hu (List.prefix_append x z') with hux | ⟨u', rfl⟩
    · exact hmost r hr hactive u (hux.trans (List.prefix_append x z)) hmatch
    · rw [List.prefix_append_right_inj] at hu
      by_cases hnil : u' = []
      · rw [hnil, List.append_nil] at hmatch ⊢
        exact hmost r hr hactive x (List.prefix_append x z) hmatch
      · exact absurd (hbeyond ⟨r, hr, hactive, u', hnil, hu, hmatch⟩) hnot
  rw [List.take_append_of_le_length hn] at hfind
  rw [← List.take_append_drop n x, List.append_assoc] at hmost' ⊢
  have hmunch : munch c (x.take n ++ (x.drop n ++ z')) rules = some ((x.take n).length, r.label) :=
    munch_eq (by rwa [hlen]) hfind
  rwa [hlen] at hmunch

/-! ### Runs -/

/-- A tokenizer over the states `σ`. -/
structure Tokenizer (α γ β σ : Type) where
  rules : List (ScanRule α γ β)
  /-- The length of the trailing context of a rule. -/
  trail : β → ℕ
  /-- What decides which rules are active. -/
  cond : σ → γ
  act : σ → β → List α → σ

namespace Tokenizer

variable {σ : Type} {T : Tokenizer α γ β σ} {s s' t : σ}

/-- The state after a step and the text that is left; `none` at the end of the text, and where no
rule matches. -/
def step (T : Tokenizer α γ β σ) (s : σ) (w : List α) : Option (σ × List α) :=
  if w.isEmpty then none
  else
    (munch (T.cond s) w T.rules).map fun (n, b) =>
      (T.act s b (w.take (n - T.trail b)), w.drop (n - T.trail b))

/-- A number of steps. -/
def scan (T : Tokenizer α γ β σ) : ℕ → σ → List α → σ
  | 0, s, _ => s
  | fuel + 1, s, w =>
      match T.step s w with
      | some (t, v) => T.scan fuel t v
      | none => s

/-- Every step makes the measure smaller. -/
def Decreases (T : Tokenizer α γ β σ) (μ : σ → List α → ℕ) : Prop :=
  ∀ s w t v, T.step s w = some (t, v) → μ t v < μ s w

variable {μ : σ → List α → ℕ}

/-- The state at the end of a text. -/
def run (T : Tokenizer α γ β σ) (μ : σ → List α → ℕ) (s : σ) (w : List α) : σ :=
  T.scan (μ s w) s w

lemma scan_eq_run (hμ : T.Decreases μ) {fuel : ℕ} (h : μ s w ≤ fuel) :
    T.scan fuel s w = T.run μ s w := by
  -- any two numbers of steps that suffice give the same
  suffices hall : ∀ m, μ s w ≤ m → T.scan fuel s w = T.scan m s w from hall _ le_rfl
  induction fuel generalizing s w with
  | zero =>
      intro m hm
      cases m with
      | zero => rfl
      | succ m =>
          rw [scan, scan]
          split
          · next t v hstep => exact absurd (hμ s w t v hstep) (by omega)
          · rfl
  | succ fuel ih =>
      intro m hm
      cases m with
      | zero =>
          rw [scan, scan]
          split
          · next t v hstep => exact absurd (hμ s w t v hstep) (by omega)
          · rfl
      | succ m =>
          rw [scan, scan]
          split
          · next t v hstep =>
              have hlt := hμ s w t v hstep
              exact ih (by omega) m (by omega)
          · rfl

theorem run_step (hμ : T.Decreases μ) (h : T.step s w = some (t, v)) :
    T.run μ s w = T.run μ t v := by
  have hlt := hμ s w t v h
  obtain ⟨m, hm⟩ : ∃ m, μ s w = m + 1 := ⟨μ s w - 1, by omega⟩
  rw [run, hm, scan, h]
  exact scan_eq_run hμ (by omega)

lemma step_nil (T : Tokenizer α γ β σ) (s : σ) : T.step s [] = none := rfl

lemma run_nil (T : Tokenizer α γ β σ) (μ : σ → List α → ℕ) (s : σ) : T.run μ s [] = s := by
  rw [run]
  cases μ s [] <;> rfl

/-- A step on a piece that is taken by a rule, with the trailing context behind it. -/
lemma step_of_munch {b : β} (hne : u ++ v ≠ [])
    (h : munch (T.cond s) (u ++ v) T.rules = some (u.length + T.trail b, b)) :
    T.step s (u ++ v) = some (T.act s b u, v) := by
  have hempty : (u ++ v).isEmpty = false := List.isEmpty_eq_false_iff.2 hne
  simp [step, hempty, h]

/-! ### Points of a run -/

/-- The run comes from a state and a text to another state with a part of the text left. -/
inductive Reaches (T : Tokenizer α γ β σ) : σ → List α → σ → List α → Prop
  | refl (s : σ) (w : List α) : Reaches T s w s w
  | step {s : σ} {w : List α} {t : σ} {v : List α} {s' : σ} {w' : List α} :
      T.step s w = some (t, v) → Reaches T t v s' w' → Reaches T s w s' w'

theorem Reaches.run_eq (hμ : T.Decreases μ) (h : T.Reaches s w t v) :
    T.run μ s w = T.run μ t v := by
  induction h with
  | refl s w => rfl
  | step hstep _ ih => rw [run_step hμ hstep, ih]

lemma exists_of_step (h : T.step s w = some (t, v)) :
    ∃ n b, munch (T.cond s) w T.rules = some (n, b) ∧ t = T.act s b (w.take (n - T.trail b)) ∧
      v = w.drop (n - T.trail b) := by
  rw [step] at h
  split_ifs at h
  obtain ⟨⟨n, b⟩, hmunch, heq⟩ := Option.map_eq_some_iff.1 h
  obtain ⟨rfl, rfl⟩ := Prod.mk.inj heq
  exact ⟨n, b, hmunch, rfl, rfl⟩

lemma Reaches.suffix (h : T.Reaches s w t v) : v <:+ w := by
  induction h with
  | refl s w => exact List.suffix_rfl
  | step hstep _ ih =>
      obtain ⟨n, b, -, -, rfl⟩ := exists_of_step hstep
      exact ih.trans (List.drop_suffix _ _)

/-! ### Runs from two states -/

/-- A relation of states that the actions keep. -/
structure Kept (T : Tokenizer α γ β σ) (R : σ → σ → Prop) : Prop where
  cond : ∀ s s', R s s' → T.cond s = T.cond s'
  act : ∀ s s' b u, R s s' → R (T.act s b u) (T.act s' b u)

variable {R : σ → σ → Prop}

lemma Kept.step (hR : T.Kept R) (hs : R s s') (h : T.step s w = some (t, v)) :
    ∃ t', T.step s' w = some (t', v) ∧ R t t' := by
  have hne : w.isEmpty = false := by
    cases w with
    | nil => exact absurd h (by simp [step_nil])
    | cons => rfl
  obtain ⟨n, b, hmunch, rfl, rfl⟩ := exists_of_step h
  refine ⟨T.act s' b (w.take (n - T.trail b)), ?_, hR.act _ _ _ _ hs⟩
  simp [Tokenizer.step, hne, ← hR.cond s s' hs, hmunch]

lemma Kept.step_eq_none (hR : T.Kept R) (hs : R s s') (h : T.step s w = none) :
    T.step s' w = none := by
  rw [Tokenizer.step, hR.cond s s' hs] at h
  rw [Tokenizer.step]
  split_ifs at h ⊢ with hw
  · rfl
  · rw [Option.map_eq_none_iff] at h ⊢
    exact h

theorem Kept.run (hR : T.Kept R) (hμ : T.Decreases μ) (h : R s s') :
    R (T.run μ s w) (T.run μ s' w) := by
  have hscan : ∀ fuel, R (T.scan fuel s w) (T.scan fuel s' w) := by
    intro fuel
    induction fuel generalizing s s' w with
    | zero => exact h
    | succ fuel ih =>
        rw [scan, scan]
        cases hstep : T.step s w with
        | none =>
            rw [hR.step_eq_none h hstep]
            exact h
        | some x =>
            obtain ⟨t', hstep', hrel⟩ := hR.step h (v := x.2) (t := x.1) hstep
            rw [hstep']
            exact ih hrel
  rw [← scan_eq_run hμ (le_max_left (μ s w) (μ s' w)),
    ← scan_eq_run hμ (le_max_right (μ s w) (μ s' w))]
  exact hscan _

/-! ### Another rest -/

/-- What follows a point of a run can be exchanged if, from no point before, a rule then reaches
over it that did not before, and no trailing context lies across it. -/
theorem Reaches.transfer (h : T.Reaches s w t z) (hw : w = x ++ z)
    (hpos : ∀ c w n b, munch c w T.rules = some (n, b) → w ≠ [] → 0 < n)
    (hbeyond : ∀ c y, y <:+ x → Beyond c y z' T.rules → Beyond c y z T.rules)
    (htrail : ∀ c y n b, y <:+ x → munch c (y ++ z) T.rules = some (n, b) →
      n - T.trail b ≤ y.length → n ≤ y.length) :
    T.Reaches s (x ++ z') t z' := by
  induction h generalizing x with
  | refl s w =>
      obtain rfl : x = [] := by simpa using hw
      exact .refl s z'
  | @step s w t v s' z hstep hreach ih =>
      have hne : w ≠ [] := by
        rintro rfl
        exact absurd hstep (by simp [step_nil])
      obtain ⟨n, b, hmunch, rfl, rfl⟩ := exists_of_step hstep
      subst hw
      have hle : n - T.trail b ≤ x.length := by
        have hsuffix := hreach.suffix.length_le
        have hn := (munch_cases hmunch).1
        simp only [List.length_drop, List.length_append] at hsuffix hn
        omega
      have hn := htrail _ x n b List.suffix_rfl hmunch hle
      have hxne : x ≠ [] := by
        rintro rfl
        exact absurd (hpos _ _ _ _ hmunch hne) (by simpa using hn)
      have hmunch' := munch_append_congr hmunch hn (hbeyond _ x List.suffix_rfl)
      have hstep' : T.step s (x ++ z') = some (T.act s b (x.take (n - T.trail b)),
          x.drop (n - T.trail b) ++ z') := by
        have hne' : (x ++ z').isEmpty = false := by simp [hxne]
        rw [Tokenizer.step, hne', if_neg Bool.false_ne_true, hmunch', Option.map_some]
        simp only [List.take_append_of_le_length hle, List.drop_append_of_le_length hle]
      have hsuffix : x.drop (n - T.trail b) <:+ x := List.drop_suffix _ _
      rw [List.take_append_of_le_length hle] at ih
      exact .step hstep' (ih (List.drop_append_of_le_length hle)
        (fun c y hy => hbeyond c y (hy.trans hsuffix))
        (fun c y n b hy => htrail c y n b (hy.trans hsuffix)))

end Tokenizer

end Lib
